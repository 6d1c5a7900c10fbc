/-
# A process as top reads it

`add_proc_list` of `top.c` and of `ps.c`, the parts that read
`/proc/PID/stat` and `/proc/PID/cmdline`, in the same text in both but for the
text of the running time. The stat line is cut into 32 words by `fscanf("%s")`
and its fields are taken by their numbers; the command line is read byte by
byte.

The words are the fields exactly as long as the name in the parentheses has no
white space (`readStat_iff`): a name with white space is cut, and none of the
words `%s` reads could be such a name. The numbers of the line also index
`cpu_time` and go into `localtime` and into products of `int`, which bounds
them. Where an argument of the command line
ends, the loop appends the first byte of the next one twice
(`readCmdline_args`), so the arguments are joined by a single character only if
that byte is the same for all of them (`joined_iff`).
-/
import Mathlib
import LinuxProg.Lib.Tokens
import LinuxProg.Paging.Input

namespace LinuxProg
namespace Top

open Tokens
open Paging (isSpace isDigit decimalValue decimal decimalValue_decimal decimal_isDigit
  decimal_ne_nil)

/-- A text: its bytes without the NUL. -/
abbrev Str := List ℕ

def smallLen : ℕ := 32
def bigLen : ℕ := 1024
def pidMaxLen : ℕ := 32768

def statPid : ℕ := 0
def statCmd : ℕ := 1
def statState : ℕ := 2
def statUtime : ℕ := 13
def statStime : ℕ := 14
def statPriority : ℕ := 17
def statNice : ℕ := 18
def statStartTime : ℕ := 21

/-! ### The stat line -/

/-- `strtol(s,NULL,10)`, which is `atol(s)`. -/
def strtol (s : Str) : ℤ :=
  let s := s.dropWhile isSpace
  let (negative, s) := match s with
    | 45 :: t => (true, t)
    | 43 :: t => (false, t)
    | t => (false, t)
  let v : ℤ := decimalValue (s.takeWhile isDigit)
  max (-2 ^ 63) (min (2 ^ 63 - 1) (if negative then -v else v))

def atoi (s : Str) : ℤ := Int.bmod (strtol s) (2 ^ 32)

/-- `(unsigned long)atol(s)`. -/
def atoul (s : Str) : ℕ := (strtol s % 2 ^ 64).toNat

/-- `sscanf(s,"(%s",cmd)` with `cmd` empty before. -/
def sscanfCmd : Str → Str
  | 40 :: s => (nextToken isSpace s).1
  | _ => []

/-- `cmd[strlen(cmd) - 1] = '\0'`; of an empty `cmd` this is outside. -/
def chop (cmd : Str) : Option Str := if cmd = [] then none else some cmd.dropLast

/-- The decimal text of a number, negative ones with their sign. -/
def intText : ℤ → Str
  | .ofNat n => decimal n
  | .negSucc n => 45 :: decimal (n + 1)

/-! ### Times -/

/-- What `add_proc_list` takes from the system besides the files: `hertz` and
`uptime`, the value of `time(NULL)`, and how far local time is ahead. -/
structure Clock where
  hertz : ℕ
  uptime : ℕ
  time : ℕ
  zone : ℤ → ℤ
  hertz_pos : 0 < hertz

/-- An `unsigned long`. -/
def wrap (x : ℤ) : ℕ := (x % 2 ^ 64).toNat

/-- A `long` with the bits of an `unsigned long`. -/
def signed (x : ℤ) : ℤ := (x + 2 ^ 63) % 2 ^ 64 - 2 ^ 63

/-- The days from 1 January 1970 to 1 January of a year. -/
def daysTo (year : ℤ) : ℤ :=
  let y := year - 1
  365 * (year - 1970) + (y / 4 - y / 100 + y / 400) - 477

/-- `localtime`, as the seconds of local time: NULL if `tm_year`, which counts
from 1900, would not be an `int`. -/
def localtime (zone : ℤ → ℤ) (t : ℤ) : Option ℤ :=
  let s := t + zone t
  if 86400 * daysTo (1900 - 2 ^ 31) ≤ s ∧ s < 86400 * daysTo (1900 + 2 ^ 31) then some s else none

/-- `unsigned long start = time(NULL) - uptime + (start_time / hertz)`, and
`localtime(&start)`, which reads it as a `time_t`. -/
def Clock.start (c : Clock) (startTime : ℕ) : Option ℤ :=
  let start := wrap (c.time - c.uptime + (startTime / c.hertz : ℕ))
  localtime c.zone (signed start)

def IsInt (x : ℤ) : Prop := -2 ^ 31 ≤ x ∧ x < 2 ^ 31

instance (x : ℤ) : Decidable (IsInt x) := inferInstanceAs (Decidable (_ ∧ _))

/-- What `int` keeps of a number. -/
def low (x : ℤ) : ℤ := Int.bmod x (2 ^ 32)

/-- A product of two `int`s; one that is no `int` is undefined. -/
def mulInt (a b : ℤ) : Option ℤ := if IsInt (a * b) then some (a * b) else none

/-- `%02d` -/
def twoDigits (n : ℤ) : Str := if (intText n).length < 2 then 48 :: intText n else intText n

/-- `sprintf` into `char time[SMALL_LEN]`. -/
def sprintfTime (s : Str) : Option Str := if s.length < smallLen then some s else none

/-- The two programs. -/
inductive Program
  | ps
  | top
  deriving DecidableEq

/-- `int min = total_time / 3600`. -/
def minutes (total : ℕ) : ℤ := low (total / 3600 : ℕ)

/-- `sec = (total_time - m) / 60`, where `m` is `min*3600`. -/
def seconds (total : ℕ) (m : ℤ) : ℤ := low (wrap (total - m) / 60 : ℕ)

/-- `proc.time`: `%02d:%02d:%02d` in `ps.c` and `%02d:%02d.%02lld` in `top.c`. -/
def procTime (program : Program) (total : ℕ) : Option Str := do
  let min := minutes total
  let m ← mulInt min 3600
  let sec := seconds total m
  match program with
  | .ps =>
    let hour := low (total / 60 : ℕ)
    sprintfTime (twoDigits hour ++ [58] ++ twoDigits min ++ [58] ++ twoDigits sec)
  | .top => do
    let s ← mulInt sec 60
    let rest := signed (total - m - s)
    sprintfTime (twoDigits min ++ [58] ++ twoDigits sec ++ [46] ++ twoDigits rest)

/-! ### The process -/

/-- What the stat line is read into. -/
structure Proc where
  pid : ℕ
  stat : Str
  priority : ℤ
  nice : ℤ
  utime : ℕ
  stime : ℕ
  startTime : ℕ
  time : Str
  cmd : Str
  deriving DecidableEq

/-- `unsigned long cpu_time[PID_MAX_LEN]` of `main`. -/
abbrev CpuTime := Vector ℕ pidMaxLen

/-- `cpu_time[pid] = total`. -/
def CpuTime.store (cpuTime : CpuTime) (pid total : ℕ) : Option CpuTime :=
  if h : pid < pidMaxLen then some (cpuTime.set pid total h) else none

/-- `add_proc_list`, the stat line, and `cpu_time` behind it. A word that does
not fit its row of `stat_token` is a store outside it, as is one behind the end
of `cpu_time`, and `strftime` reads through what `localtime` gives. -/
def readStat (program : Program) (clock : Clock) (line : Str) (cpuTime : CpuTime) :
    Option (Proc × CpuTime) := do
  let statToken := tokens isSpace smallLen line
  if ∀ t ∈ statToken, t.length < smallLen then
    let token := fun k => statToken.getD k []
    let pid := atoul (token statPid)
    let utime := atoul (token statUtime)
    let stime := atoul (token statStime)
    let startTime := atoul (token statStartTime)
    let total := wrap (utime + stime)
    let cpuTime ← cpuTime.store pid total
    let _ ← clock.start startTime
    let time ← procTime program total
    let cmd ← chop (sscanfCmd (token statCmd))
    some (⟨pid, token statState, atoi (token statPriority), atoi (token statNice), utime, stime,
      startTime, time, cmd⟩, cpuTime)
  else none

/-- A stat line: the process number, the name, and the fields from the third
on, at least up to the start time. -/
structure StatLine where
  pid : Str
  comm : Str
  fields : List Str
  comm_length : comm.length ≤ 15
  comm_nul : 0 ∉ comm
  word : ∀ w ∈ pid :: fields, IsWord isSpace w ∧ w.length < smallLen
  enough : 20 ≤ fields.length

namespace StatLine

/-- `pid (comm) state f4 f5 ...` -/
def text (l : StatLine) : Str :=
  l.pid ++ [32] ++ ([40] ++ l.comm ++ [41]) ++ join 32 l.fields ++ [10]

/-- Field `n` of the line, for `n ≥ 3`. -/
def field (l : StatLine) (n : ℕ) : Str := l.fields.getD (n - 3) []

end StatLine

/-- `x` is the number `w` says, if `w` is the text of one. -/
def Means (w : Str) (x : ℤ) : Prop := ∀ n, w = intText n → x = n

/-- The number `w` says, if any, is in the range `lo ≤ n < hi`. -/
def InRange (lo hi : ℤ) (w : Str) : Prop := ∀ n, w = intText n → lo ≤ n ∧ n < hi

/-- The process has the fields of the line. -/
structure Proc.Of (p : Proc) (l : StatLine) : Prop where
  pid : Means l.pid p.pid
  stat : p.stat = l.field 3
  priority : Means (l.field 18) p.priority
  nice : Means (l.field 19) p.nice
  utime : Means (l.field 14) p.utime
  stime : Means (l.field 15) p.stime
  startTime : Means (l.field 22) p.startTime
  cmd : p.cmd = l.comm

/-- The time the process ran, as it is added up. -/
def StatLine.total (l : StatLine) : ℕ := wrap (atoul (l.field 14) + atoul (l.field 15))

/-- The numbers of the line fit: the process number the table `cpu_time`, the
others the C types they are read into, the start time also the calendar and the
time the process ran also the seconds of its minutes. -/
structure StatLine.Fits (clock : Clock) (l : StatLine) : Prop where
  slot : atoul l.pid < pidMaxLen
  priority : InRange (-2 ^ 31) (2 ^ 31) (l.field 18)
  nice : InRange (-2 ^ 31) (2 ^ 31) (l.field 19)
  utime : InRange 0 (2 ^ 63) (l.field 14)
  stime : InRange 0 (2 ^ 63) (l.field 15)
  startTime : InRange 0 (2 ^ 63) (l.field 22)
  calendar : (clock.start (atoul (l.field 22))).isSome
  ran : IsInt (minutes l.total * 3600)

/-! ### Numbers -/

theorem isDigit_not_isSpace {b : ℕ} (h : isDigit b = true) : isSpace b = false := by
  simp only [isDigit, isSpace, Bool.and_eq_true, decide_eq_true_eq, Bool.or_eq_false_iff,
    beq_eq_false_iff_ne, Bool.and_eq_false_iff, decide_eq_false_iff_not] at h ⊢
  omega

theorem decimal_cons (n : ℕ) : ∃ b t, decimal n = b :: t ∧ isDigit b = true := by
  cases h : decimal n with
  | nil => exact absurd h (decimal_ne_nil n)
  | cons b t => exact ⟨b, t, rfl, decimal_isDigit n b (by rw [h]; exact List.mem_cons_self)⟩

theorem takeWhile_decimal (n : ℕ) : (decimal n).takeWhile isDigit = decimal n :=
  List.takeWhile_eq_self_iff.mpr (decimal_isDigit n)

/-- `strtol` reads the text of a number back, as far as `long` goes. -/
theorem strtol_intText (n : ℤ) : strtol (intText n) = max (-2 ^ 63) (min (2 ^ 63 - 1) n) := by
  cases n with
  | ofNat n =>
    obtain ⟨b, t, hbt, hb⟩ := decimal_cons n
    have hspace : (decimal n).dropWhile isSpace = decimal n := by
      rw [hbt, List.dropWhile_cons_of_neg]
      simp [isDigit_not_isSpace hb]
    have h45 : b ≠ 45 ∧ b ≠ 43 := by
      constructor <;> rintro rfl <;> exact absurd hb (by decide)
    have hsign : (match b :: t with
        | 45 :: t => (true, t)
        | 43 :: t => (false, t)
        | t => (false, t)) = (false, b :: t) := by
      split
      · rename_i h
        exact absurd (List.cons.inj h).1 h45.1
      · rename_i h
        exact absurd (List.cons.inj h).1 h45.2
      · rfl
    rw [intText, strtol, hspace, hbt, hsign]
    simp only [← hbt, takeWhile_decimal, decimalValue_decimal]
    rfl
  | negSucc n =>
    have hspace : (45 :: decimal (n + 1)).dropWhile isSpace = 45 :: decimal (n + 1) := rfl
    rw [intText, strtol, hspace]
    simp only [takeWhile_decimal, decimalValue_decimal]
    rfl

/-- A number is read right into an `unsigned long` if `long` has it. -/
theorem means_atoul (w : Str) : Means w (atoul w) ↔ InRange 0 (2 ^ 63) w := by
  refine forall_congr' fun n => forall_congr' ?_
  rintro rfl
  rw [atoul, strtol_intText]
  omega

theorem means_atoi (w : Str) : Means w (atoi w) ↔ InRange (-2 ^ 31) (2 ^ 31) w := by
  refine forall_congr' fun n => forall_congr' ?_
  rintro rfl
  rw [atoi, strtol_intText, Int.bmod_def]
  split <;> omega

/-- A word below the end of `cpu_time` was read right. -/
theorem means_of_slot {w : Str} (h : atoul w < pidMaxLen) : Means w (atoul w) := by
  refine (means_atoul w).mpr ?_
  rintro n rfl
  rw [atoul, strtol_intText, pidMaxLen] at h
  omega

/-! ### The running time -/

theorem length_decimal {n k : ℕ} (hk : 0 < k) (h : n < 10 ^ k) : (decimal n).length ≤ k := by
  unfold decimal
  split
  · exact hk
  · rw [List.length_map, List.length_reverse]
    exact (Nat.digits_length_le_iff (by decide) n).mpr h

/-- A text of `%02d`, which has two characters or as many as the number. -/
theorem length_twoDigits {n : ℤ} {k : ℕ} (hk : 2 ≤ k) (hlo : -10 ^ (k - 1) < n)
    (hhi : n < 10 ^ k) : (twoDigits n).length ≤ k := by
  have hlen : (intText n).length ≤ k := by
    cases n with
    | ofNat n =>
      have hn : n < 10 ^ k := by
        zify
        exact hhi
      exact length_decimal (by omega) hn
    | negSucc n =>
      have hn : n + 1 < 10 ^ (k - 1) := by
        zify
        omega
      have := length_decimal (by omega) hn
      simp only [intText, List.length_cons]
      omega
  unfold twoDigits
  split
  · rw [List.length_cons]
    omega
  · exact hlen

theorem low_spec (x : ℤ) : (∃ q, x = 2 ^ 32 * q + low x) ∧ IsInt (low x) := by
  refine ⟨⟨Int.bdiv x (2 ^ 32), ?_⟩, ?_⟩
  · have := Int.bdiv_add_bmod x (2 ^ 32)
    rw [low]
    omega
  · rw [IsInt, low, Int.bmod_def]
    split <;> omega

theorem low_eq {x q y : ℤ} (h : x = 2 ^ 32 * q + y) (hy : IsInt y) : low x = y := by
  rw [low, Int.bmod_def]
  unfold IsInt at hy
  split <;> omega

theorem signed_bounds (x : ℤ) : -2 ^ 63 ≤ signed x ∧ signed x < 2 ^ 63 := by
  unfold signed
  omega

theorem signed_eq {x q y : ℤ} (h : x = 2 ^ 64 * q + y) (hlo : -2 ^ 63 ≤ y) (hhi : y < 2 ^ 63) :
    signed x = y := by
  unfold signed
  omega

/-- The seconds are below 60. Only where the difference wrapped around they
may be more; what is left of it is then below 60. -/
theorem seconds_cases {total : ℕ} {m : ℤ} (htotal : total < 2 ^ 64) (hm : minutes total * 3600 = m)
    (hint : IsInt m) : 0 ≤ seconds total m ∧ seconds total m * 60 < 2 ^ 31 ∧
      (seconds total m < 60 ∨
        ∃ r : ℕ, r < 60 ∧ signed (total - m - seconds total m * 60) = r) := by
  obtain ⟨⟨q, hq⟩, hmin⟩ := low_spec (total / 3600 : ℕ)
  rw [← minutes] at hq hmin
  unfold IsInt at hint hmin
  have hx : wrap (total - m) = ((total : ℤ) - m) % 2 ^ 64 := by
    unfold wrap
    omega
  unfold seconds
  generalize wrap (total - m) = x at hx
  by_cases hwrap : (total : ℤ) - m < 2 ^ 64
  · -- what the minutes lost is lost in the seconds too
    have hxq : (x : ℤ) = 3600 * 2 ^ 32 * q + (total % 3600 : ℕ) := by omega
    have hdiv : ((x / 60 : ℕ) : ℤ) = 2 ^ 32 * (60 * q) + (total % 3600 / 60 : ℕ) := by omega
    rw [low_eq hdiv (by unfold IsInt; omega)]
    omega
  · have hlt : x < 2 ^ 31 := by omega
    have hlow : low (x / 60 : ℕ) = (x / 60 : ℕ) :=
      low_eq (q := 0) (by rw [mul_zero, zero_add]) ⟨by omega, by omega⟩
    rw [hlow]
    refine ⟨by omega, by omega, Or.inr ⟨x % 60, by omega, ?_⟩⟩
    clear htotal hm hq hmin hlow
    exact signed_eq (q := (total - m) / 2 ^ 64) (by omega) (by omega) (by omega)

theorem length_twoDigits_signed (x : ℤ) : (twoDigits (signed x)).length ≤ 20 := by
  obtain ⟨hlo, hhi⟩ := signed_bounds x
  exact length_twoDigits (by decide) (by omega) (by omega)

theorem length_twoDigits_sec {sec : ℤ} (h : 0 ≤ sec) (hsec : sec * 60 < 2 ^ 31) :
    (twoDigits sec).length ≤ 8 :=
  length_twoDigits (by decide) (by omega) (by omega)

theorem mulInt_some {a b : ℤ} (h : IsInt (a * b)) : mulInt a b = some (a * b) := if_pos h

theorem mulInt_none {a b : ℤ} (h : ¬ IsInt (a * b)) : mulInt a b = none := if_neg h

theorem sprintfTime_isSome {s : Str} (h : s.length < smallLen) : (sprintfTime s).isSome := by
  rw [sprintfTime, if_pos h]
  rfl

/-- The running time is printed if its minutes have an `int` of seconds: the
text then fits `proc.time` in both programs. -/
theorem procTime_isSome (program : Program) {total : ℕ} (htotal : total < 2 ^ 64) :
    (procTime program total).isSome ↔ IsInt (minutes total * 3600) := by
  unfold procTime
  by_cases hint : IsInt (minutes total * 3600)
  · simp only [mulInt_some hint, hint, Option.bind_eq_bind, Option.bind_some, iff_true]
    obtain ⟨h0, hsec, hcases⟩ := seconds_cases htotal rfl hint
    clear htotal
    have hmin : (twoDigits (minutes total)).length ≤ 7 := by
      unfold IsInt at hint
      exact length_twoDigits (by decide) (by omega) (by omega)
    generalize seconds total (minutes total * 3600) = sec at h0 hsec hcases ⊢
    have hlen := length_twoDigits_sec h0 hsec
    cases program with
    | ps =>
      have hhour : (twoDigits (low (total / 60 : ℕ))).length ≤ 11 := by
        have := (low_spec (total / 60 : ℕ)).2
        unfold IsInt at this
        exact length_twoDigits (by decide) (by omega) (by omega)
      refine sprintfTime_isSome ?_
      simp only [List.length_append, List.length_singleton, smallLen]
      omega
    | top =>
      have hint : IsInt (sec * 60) := ⟨by linarith, hsec⟩
      rw [mulInt_some hint, Option.bind_some]
      refine sprintfTime_isSome ?_
      simp only [List.length_append, List.length_singleton, smallLen]
      rcases hcases with hlt | ⟨r, hr, heq⟩
      · have hlen : (twoDigits sec).length ≤ 2 :=
          length_twoDigits (by decide) (by omega) (by omega)
        have hrest := length_twoDigits_signed (total - minutes total * 3600 - sec * 60)
        omega
      · have hrest : (twoDigits r).length ≤ 2 :=
          length_twoDigits (by decide) (by omega) (by omega)
        rw [heq]
        omega
  · simp only [mulInt_none hint, hint, Option.bind_eq_bind, Option.bind_none, Option.isSome_none,
      Bool.false_eq_true]

/-! ### Words of the line -/

/-- The command is a word that was read, less its last byte. -/
theorem readStat_cmd_not_blank {program : Program} {clock : Clock} {line : Str} {t t' : CpuTime}
    {p : Proc} (h : readStat program clock line t = some (p, t')) :
    ∀ b ∈ p.cmd, isSpace b = false := by
  have hscan : ∀ s : Str, ∀ b ∈ sscanfCmd s, isSpace b = false := by
    intro s
    unfold sscanfCmd
    split
    · exact nextToken_not_blank isSpace _
    · simp
  unfold readStat at h
  simp only at h
  split at h
  · obtain ⟨cpuTime, -, h⟩ := Option.bind_eq_some_iff.mp h
    obtain ⟨start, -, h⟩ := Option.bind_eq_some_iff.mp h
    obtain ⟨time, -, h⟩ := Option.bind_eq_some_iff.mp h
    obtain ⟨cmd, hcmd, hp⟩ := Option.bind_eq_some_iff.mp h
    cases hp
    unfold chop at hcmd
    split at hcmd
    · cases hcmd
    · cases hcmd
      exact fun b hb => hscan _ b (List.mem_of_mem_dropLast hb)
  · cases h

namespace StatLine

/-- The fields, the name in its parentheses as one. -/
def words (l : StatLine) : List Str := l.pid :: ([40] ++ l.comm ++ [41]) :: l.fields

/-- The process of a line read field by field. -/
def proc (l : StatLine) (time : Str) : Proc :=
  ⟨atoul l.pid, l.field 3, atoi (l.field 18), atoi (l.field 19), atoul (l.field 14),
    atoul (l.field 15), atoul (l.field 22), time, l.comm⟩

theorem blank_text (l : StatLine) : 32 :: l.text = join 32 l.words ++ [10] := by
  simp [text, words, join]

theorem isWord_name {l : StatLine} (h : ∀ b ∈ l.comm, isSpace b = false) :
    IsWord isSpace ([40] ++ l.comm ++ [41]) := by
  refine ⟨by simp, fun b hb => ?_⟩
  simp only [List.mem_append, List.mem_singleton] at hb
  rcases hb with (rfl | hb) | rfl
  · rfl
  · exact h b hb
  · rfl

theorem tokens_text {l : StatLine} (h : ∀ b ∈ l.comm, isSpace b = false) :
    tokens isSpace smallLen l.text =
      l.words.take smallLen ++ List.replicate (smallLen - l.words.length) [] := by
  have hword : ∀ w ∈ l.words, IsWord isSpace w := by
    intro w hw
    rcases List.mem_cons.mp hw with rfl | hw
    · exact (l.word _ List.mem_cons_self).1
    · rcases List.mem_cons.mp hw with rfl | hw
      · exact isWord_name h
      · exact (l.word w (List.mem_cons_of_mem _ hw)).1
  rw [← tokens_blank (c := 32) rfl, blank_text]
  exact tokens_join rfl (by decide) smallLen l.words hword

theorem getD_words (ws : List Str) {n k : ℕ} (hk : k < n) :
    (ws.take n ++ List.replicate (n - ws.length) []).getD k [] = ws.getD k [] := by
  simp only [List.getD_eq_getElem?_getD]
  rcases Nat.lt_or_ge k ws.length with hlt | hge
  · rw [List.getElem?_append_left (by rw [List.length_take]; omega),
      List.getElem?_take_of_lt hk]
  · rw [List.getElem?_append_right (by rw [List.length_take]; omega),
      List.getElem?_eq_none hge, List.getElem?_replicate]
    split <;> rfl

theorem length_lt {l : StatLine} : ∀ t ∈ l.words.take smallLen ++
    List.replicate (smallLen - l.words.length) ([] : Str), t.length < smallLen := by
  intro t ht
  rcases List.mem_append.mp ht with ht | ht
  · have := List.mem_of_mem_take ht
    rcases List.mem_cons.mp this with rfl | hw
    · exact (l.word _ List.mem_cons_self).2
    · rcases List.mem_cons.mp hw with rfl | hw
      · have := l.comm_length
        simp only [List.length_append, List.length_singleton, smallLen]
        omega
      · exact (l.word t (List.mem_cons_of_mem _ hw)).2
  · rw [List.eq_of_mem_replicate ht]
    decide

/-- **A name without white space** is one word, and so the fields are found. -/
theorem readStat_text {l : StatLine} (h : ∀ b ∈ l.comm, isSpace b = false) (program : Program)
    (clock : Clock) (t : CpuTime) : readStat program clock l.text t =
      (t.store (atoul l.pid) l.total).bind fun t => (clock.start (atoul (l.field 22))).bind
        fun _ => (procTime program l.total).bind fun time => some (l.proc time, t) := by
  have hname : IsWord isSpace (l.comm ++ [41]) :=
    ⟨by simp, fun b hb => (isWord_name h).not_blank b (by simp at hb ⊢; tauto)⟩
  have hcmd : sscanfCmd ([40] ++ l.comm ++ [41]) = l.comm ++ [41] := by
    have := @nextToken_word _ _ _ [] hname (by simp)
    rw [List.append_nil] at this
    simp [sscanfCmd, this]
  have hchop : chop (l.comm ++ [41]) = some l.comm := by simp [chop]
  have hget : ∀ k < smallLen, (l.words.take smallLen ++
      List.replicate (smallLen - l.words.length) ([] : Str)).getD k [] = l.words.getD k [] :=
    fun k hk => getD_words l.words hk
  unfold readStat
  simp only [tokens_text h, if_pos length_lt]
  rw [hget _ (by decide : statCmd < smallLen), hget _ (by decide : statPid < smallLen),
    hget _ (by decide : statState < smallLen), hget _ (by decide : statPriority < smallLen),
    hget _ (by decide : statNice < smallLen), hget _ (by decide : statUtime < smallLen),
    hget _ (by decide : statStime < smallLen), hget _ (by decide : statStartTime < smallLen)]
  have h1 : l.words.getD statCmd [] = [40] ++ l.comm ++ [41] := rfl
  rw [h1, hcmd, hchop]
  rfl

/-- The process is read if the table, the calendar and the seconds bear it. -/
theorem readStat_text_isSome {l : StatLine} (h : ∀ b ∈ l.comm, isSpace b = false)
    (program : Program) (clock : Clock) (t : CpuTime) :
    (∃ time t', readStat program clock l.text t = some (l.proc time, t')) ↔
      atoul l.pid < pidMaxLen ∧ (clock.start (atoul (l.field 22))).isSome ∧
        IsInt (minutes l.total * 3600) := by
  have htotal : l.total < 2 ^ 64 := by
    unfold total wrap
    omega
  rw [← procTime_isSome program htotal, readStat_text h]
  constructor
  · rintro ⟨time, t', hread⟩
    obtain ⟨t'', hstore, hread⟩ := Option.bind_eq_some_iff.mp hread
    obtain ⟨start, hstart, hread⟩ := Option.bind_eq_some_iff.mp hread
    obtain ⟨time', htime, -⟩ := Option.bind_eq_some_iff.mp hread
    refine ⟨?_, by rw [hstart]; rfl, by rw [htime]; rfl⟩
    by_contra hslot
    simp [CpuTime.store, hslot] at hstore
  · rintro ⟨hslot, hstart, htime⟩
    obtain ⟨start, hstart⟩ := Option.isSome_iff_exists.mp hstart
    obtain ⟨time, htime⟩ := Option.isSome_iff_exists.mp htime
    rw [CpuTime.store, dif_pos hslot, hstart, htime]
    exact ⟨time, _, rfl⟩

end StatLine

/-- `7 (a b) S 0 0 ...` -/
def spaced : StatLine where
  pid := [55]
  comm := [97, 32, 98]
  fields := [83] :: List.replicate 49 [48]
  comm_length := by decide
  comm_nul := by decide
  word := by
    intro w hw
    have : w = [55] ∨ w = [83] ∨ w = [48] := by simpa using hw
    rcases this with rfl | rfl | rfl <;> exact ⟨⟨by decide, by decide⟩, by decide⟩
  enough := by decide

/-- `strcat(cmd_option,s)` into `char cmd_option[BIG_LEN + 100]`. -/
def strcatOption (cmdOption s : Str) : Option Str :=
  if (cmdOption ++ s).length < bigLen + 100 then some (cmdOption ++ s) else none

/-- The read loop: `cmd_option` and what is left of the file. Reading at its
end leaves `arr[0]` zero. -/
def readCmdline : Str → Str → Option (Str × Str)
  | [], cmdOption => some (cmdOption, [])
  | [0], cmdOption => some (cmdOption, [])
  | 0 :: 0 :: file, cmdOption => some (cmdOption, file)
  | 0 :: c :: file, cmdOption => do
    -- once in the branch and once more behind it
    let cmdOption ← strcatOption cmdOption [c]
    let cmdOption ← strcatOption cmdOption [c]
    readCmdline file cmdOption
  | c :: file, cmdOption => do
    let cmdOption ← strcatOption cmdOption [c]
    readCmdline file cmdOption

/-- What the kernel gives for a list of arguments. -/
def cmdline (args : List Str) : Str := args.flatMap (· ++ [0])

/-- The arguments, and one character between them. -/
def joined (sep : ℕ) (args : List Str) : Str := [sep].intercalate args

/-- `cmd_option` at the end of the file, if it fits. -/
def kept (cmdOption : Str) : Option (Str × Str) :=
  if cmdOption.length < bigLen + 100 then some (cmdOption, []) else none

/-- What the loop appends for the arguments behind the first. -/
def glued (args : List Str) : Str := args.flatMap fun a => a.take 1 ++ a

theorem readCmdline_cons {c : ℕ} (hc : c ≠ 0) (file cmdOption : Str) :
    readCmdline (c :: file) cmdOption = (strcatOption cmdOption [c]).bind (readCmdline file) := by
  cases c with
  | zero => exact absurd rfl hc
  | succ c => rfl

theorem readCmdline_boundary {c : ℕ} (hc : c ≠ 0) (file cmdOption : Str) :
    readCmdline (0 :: c :: file) cmdOption = (strcatOption cmdOption [c]).bind fun cmdOption =>
      (strcatOption cmdOption [c]).bind (readCmdline file) := by
  cases c with
  | zero => exact absurd rfl hc
  | succ c => rfl

theorem strcatOption_bind {f : Str → Option (Str × Str)} {x : Str}
    (h : ∀ o : Str, o.length < bigLen + 100 → f o = kept (o ++ x)) (o s : Str) :
    (strcatOption o s).bind f = kept (o ++ (s ++ x)) := by
  unfold strcatOption
  split
  · rename_i hlt
    rw [Option.bind_some, h _ hlt, List.append_assoc]
  · rename_i hge
    have : ¬ (o ++ (s ++ x)).length < bigLen + 100 := by
      rw [← List.append_assoc, List.length_append]
      omega
    rw [kept, if_neg this, Option.bind_none]

/-- The bytes of an argument are appended one by one. -/
theorem readCmdline_arg {rest x : Str}
    (h : ∀ o : Str, o.length < bigLen + 100 → readCmdline rest o = kept (o ++ x)) :
    ∀ (a : Str), 0 ∉ a → ∀ o : Str, o.length < bigLen + 100 →
      readCmdline (a ++ rest) o = kept (o ++ (a ++ x))
  | [], _, o, ho => h o ho
  | c :: a, ha, o, _ => by
    obtain ⟨hc, ha⟩ : 0 ≠ c ∧ 0 ∉ a := by simpa using ha
    rw [List.cons_append, readCmdline_cons (Ne.symm hc),
      strcatOption_bind (readCmdline_arg h a ha)]
    rfl

/-- The arguments behind the first, from the NUL before them on. -/
theorem readCmdline_rest : ∀ (args : List Str), (∀ a ∈ args, a ≠ [] ∧ 0 ∉ a) →
    ∀ o : Str, o.length < bigLen + 100 →
      readCmdline (0 :: cmdline args) o = kept (o ++ glued args)
  | [], _, o, ho => by
    rw [glued, List.flatMap_nil, List.append_nil, kept, if_pos ho]
    rfl
  | [] :: _, h, _, _ => absurd rfl (h [] List.mem_cons_self).1
  | (c :: a) :: args, h, o, _ => by
    obtain ⟨ha, hargs⟩ := List.forall_mem_cons.mp h
    obtain ⟨hc, ha⟩ : 0 ≠ c ∧ 0 ∉ a := by simpa using ha.2
    have harg := readCmdline_arg (readCmdline_rest args hargs) a ha
    have hfile : 0 :: cmdline ((c :: a) :: args) = 0 :: c :: (a ++ 0 :: cmdline args) := by
      simp [cmdline]
    rw [hfile, readCmdline_boundary (Ne.symm hc), strcatOption_bind fun o _ =>
      strcatOption_bind harg o [c]]
    rfl

/-- **The loop** stops at the end of the file, having appended the first byte
of every argument but the first twice. -/
theorem readCmdline_args {a : Str} {args : List Str} (ha : 0 ∉ a)
    (hargs : ∀ b ∈ args, b ≠ [] ∧ 0 ∉ b) :
    readCmdline (cmdline (a :: args)) [] = kept (a ++ glued args) := by
  have hfile : cmdline (a :: args) = a ++ 0 :: cmdline args := by simp [cmdline]
  rw [hfile, readCmdline_arg (readCmdline_rest args hargs) a ha [] (by decide), List.nil_append]

theorem joined_cons (sep : ℕ) (a : Str) : ∀ args : List Str,
    joined sep (a :: args) = a ++ args.flatMap (sep :: ·)
  | [] => by simp [joined, List.intercalate]
  | b :: args => by
    have := joined_cons sep b args
    simp only [joined, List.intercalate, List.intersperse_cons_cons, List.flatten_cons] at this ⊢
    rw [this]
    rfl

theorem glued_eq_iff (sep : ℕ) : ∀ args : List Str, (∀ a ∈ args, a ≠ [] ∧ 0 ∉ a) →
    (glued args = args.flatMap (sep :: ·) ↔ ∀ a ∈ args, a.head? = some sep)
  | [], _ => by simp [glued]
  | [] :: _, h => absurd rfl (h [] List.mem_cons_self).1
  | (c :: a) :: args, h => by
    have ih := glued_eq_iff sep args (List.forall_mem_cons.mp h).2
    rw [List.forall_mem_cons, ← ih, List.head?_cons, Option.some.injEq]
    simp [glued]

theorem length_glued : ∀ args : List Str, (∀ a ∈ args, a ≠ [] ∧ 0 ∉ a) →
    (glued args).length = args.flatten.length + args.length
  | [], _ => rfl
  | [] :: _, h => absurd rfl (h [] List.mem_cons_self).1
  | (c :: a) :: args, h => by
    have ih := length_glued args (List.forall_mem_cons.mp h).2
    have hcons : glued ((c :: a) :: args) = c :: c :: a ++ glued args := rfl
    rw [hcons, List.length_append, ih, List.flatten_cons, List.length_append, List.length_cons,
      List.length_cons, List.length_cons]
    omega

/-- **The arguments come out joined by a single character** exactly when those
behind the first begin with the same character; they must also fit. -/
theorem joined_iff (a : Str) (args : List Str) (h : ∀ b ∈ a :: args, b ≠ [] ∧ 0 ∉ b) :
    (∃ sep, readCmdline (cmdline (a :: args)) [] = some (joined sep (a :: args), [])) ↔
      (∃ c, ∀ b ∈ args, b.head? = some c) ∧
        (a :: args).flatten.length + args.length < bigLen + 100 := by
  obtain ⟨ha, hargs⟩ := List.forall_mem_cons.mp h
  have hlen : (a ++ glued args).length = (a :: args).flatten.length + args.length := by
    rw [List.length_append, length_glued args hargs, List.flatten_cons, List.length_append]
    omega
  rw [readCmdline_args ha.2 hargs, kept, hlen]
  split
  · rename_i hfit
    simp only [Option.some.injEq, Prod.mk.injEq, and_true, joined_cons,
      List.append_cancel_left_eq, glued_eq_iff _ args hargs, hfit]
  · rename_i hfit
    exact iff_of_false (by simp) fun h => hfit h.2

/-- `ls -l dir` comes out as `ls--lddir`. -/
theorem ls_not_joined : ¬ ∃ sep,
    readCmdline (cmdline [[108, 115], [45, 108], [100, 105, 114]]) [] =
      some (joined sep [[108, 115], [45, 108], [100, 105, 114]], []) := by
  rintro ⟨sep, h⟩
  have : 45 = sep ∧ 100 = sep := by simpa [readCmdline, strcatOption, cmdline, joined,
    List.intercalate, bigLen] using h
  omega

theorem ls_joined :
    (∃ sep, readCmdline (cmdline [[108, 115], [45, 108], [45, 97]]) [] =
      some (joined sep [[108, 115], [45, 108], [45, 97]], [])) ↔
      (∃ c, ∀ b ∈ [[45, 108], [45, 97]], b.head? = some c) ∧
        ([[108, 115], [45, 108], [45, 97]] : List Str).flatten.length + 2 < bigLen + 100 :=
  joined_iff [108, 115] [[45, 108], [45, 97]] (by decide)

end Top
end LinuxProg
