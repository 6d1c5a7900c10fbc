/-
# The crossroad

The four vehicle threads of `OS과제/과제6` and its
`main`, statement by statement. A road is one of the four start points; road
`k` here is `k + 1` in the source. The shared variables are `Shared`; the
waiting set `s` is the list of its first `howMany` items. Its array has 15 slots,
and `addSet` does not look at them: a step is a step of the program as long as
such a write is to one of them (`InSlots`), and past it the list says nothing. A
thread is where it is in its function (`Pc`), with its local `item`.

Thread `k` is the only one to lock `mutex k` or to wait on `cond k`, so a lock
never blocks, and `pthread_cond_signal` wakes thread `k` if it is inside
`pthread_cond_wait` and has no effect if it is not (`signal`). Which thread goes
on, the random pick of `getItem`, and the value it returns uninitialised from
an empty set are left open. What the threads print is in `Crossroad.Transcript`;
`usleep` is left out.
-/
import Mathlib
import LinuxProg.Lib.Transition

namespace LinuxProg
namespace Crossroad

/-- A start point. -/
abbrev Road := Fin 4

structure Shared where
  tick : ℕ
  indx : ℕ
  arr : List Road
  P : Road → ℕ
  /-- `0`, or the road of the vehicle that passed last. -/
  passed : ℕ

/-- Where a thread is in its function. -/
inductive Pc where
  | notCreated
  /-- Before `pthread_mutex_lock`. -/
  | top
  /-- Before `pthread_cond_wait`. -/
  | locked
  /-- Inside `pthread_cond_wait`, not signalled yet. -/
  | waiting
  /-- Inside `pthread_cond_wait`, signalled. -/
  | woken
  /-- At the test after `pthread_cond_wait` has returned. -/
  | test
  /-- At the unlock and exit under that test. -/
  | leave
  /-- The label `GO`, with the printing. -/
  | go
  | tick1
  | count
  | add1
  | setPassed
  | findOpposite
  | remove
  | signalOpposite
  | print2
  | tick2
  | add2
  | get
  /-- At the test after `getItem`. -/
  | test2 (item : Option Road)
  /-- The exit branch: printing, unlock, then the signals still to be sent. -/
  | print3
  | unlockExit
  | broadcast (rest : List Road)
  /-- At the branches on `item`; `none` is a value other than `1` to `4`. -/
  | dispatch (item : Option Road)
  | unlock
  | exited
deriving DecidableEq, Repr

/-- Where `main` is. -/
inductive MainPc where
  | create (k : Road)
  | signal
  | join (k : Road)
  | done
deriving DecidableEq, Repr

structure State where
  shared : Shared
  pc : Road → Pc
  main : MainPc

/-! ### The waiting set -/

/-- `P1 + P2 + P3 + P4`. -/
def Shared.total (sh : Shared) : ℕ := sh.P 0 + sh.P 1 + sh.P 2 + sh.P 3

/-- `addSet`. -/
def addSet (input : ℕ) (add : Road) (sh : Shared) : Shared :=
  if sh.indx < input then { sh with arr := sh.arr ++ [add], indx := sh.indx + 1 } else sh

/-- `addSet(start_list[indx])`. Once all vehicles have arrived the read is past
the list, and its value is not used. -/
def arrive (startList : List Road) (sh : Shared) : Shared :=
  addSet startList.length (startList.getD sh.indx 0) sh

/-- `getItem`, with the value of `rand()` and what the uninitialised `ret` is. -/
def getItem (rand : ℕ) (ret : Option Road) (arr : List Road) : Option Road × List Road :=
  if arr.length = 0 then (ret, arr)
  else (arr[rand % arr.length]?, arr.eraseIdx (rand % arr.length))

/-- `find`. -/
def find (n : Road) (arr : List Road) : Bool := arr.contains n

/-- `removeItem`. Without an occurrence of `n` it drops the last item. -/
def removeItem (n : Road) (arr : List Road) : List Road :=
  if n ∈ arr then arr.erase n else arr.dropLast

/-! ### The thread functions -/

/-- What a statement does: to the shared variables, where the thread goes on,
and the thread it signals. -/
structure Effect where
  shared : Shared
  pc : Pc
  signal : Option Road

/-- A thread function: `own` is its road, `opposite` the one it looks for, and
`others` those it signals at the end, in order. A statement that blocks has no
effect. -/
def threadBody (own opposite : Road) (others : List Road) (startList : List Road) (rand : ℕ)
    (ret : Option Road) (sh : Shared) : Pc → Option Effect
  | .notCreated => none
  | .top => some ⟨sh, .locked, none⟩
  | .locked => some ⟨sh, .waiting, none⟩
  | .waiting => none
  | .woken => some ⟨sh, .test, none⟩
  | .test => some ⟨sh, if sh.total = startList.length then .leave else .go, none⟩
  | .leave => some ⟨sh, .exited, none⟩
  | .go => some ⟨{ sh with passed := 0 }, .tick1, none⟩
  | .tick1 => some ⟨{ sh with tick := sh.tick + 1 }, .count, none⟩
  | .count => some ⟨{ sh with P := Function.update sh.P own (sh.P own + 1) }, .add1, none⟩
  | .add1 => some ⟨arrive startList sh, .setPassed, none⟩
  | .setPassed => some ⟨{ sh with passed := own.val + 1 }, .findOpposite, none⟩
  | .findOpposite => some ⟨sh, if find opposite sh.arr then .remove else .print2, none⟩
  | .remove => some ⟨{ sh with arr := removeItem opposite sh.arr }, .signalOpposite, none⟩
  | .signalOpposite => some ⟨sh, .unlock, some opposite⟩
  | .print2 => some ⟨{ sh with passed := 0 }, .tick2, none⟩
  | .tick2 => some ⟨{ sh with tick := sh.tick + 1 }, .add2, none⟩
  | .add2 => some ⟨arrive startList sh, .get, none⟩
  | .get =>
    let (item, arr) := getItem rand ret sh.arr
    some ⟨{ sh with arr := arr }, .test2 item, none⟩
  | .test2 item =>
    some ⟨sh, if sh.total = startList.length then .print3 else .dispatch item, none⟩
  | .print3 => some ⟨{ sh with passed := 0 }, .unlockExit, none⟩
  | .unlockExit => some ⟨sh, .broadcast others, none⟩
  | .broadcast [] => some ⟨sh, .exited, none⟩
  | .broadcast (j :: js) => some ⟨sh, .broadcast js, some j⟩
  | .dispatch item =>
    if item = some own then some ⟨sh, .go, none⟩ else some ⟨sh, .unlock, item⟩
  | .unlock => some ⟨sh, .top, none⟩
  | .exited => none

def threadFunction1 := threadBody 0 2 [1, 2, 3]

def threadFunction2 := threadBody 1 3 [0, 2, 3]

def threadFunction3 := threadBody 2 0 [0, 1, 3]

def threadFunction4 := threadBody 3 1 [0, 1, 2]

/-- The function thread `k` runs. -/
def threadFunction : Road → List Road → ℕ → Option Road → Shared → Pc → Option Effect
  | 0 => threadFunction1
  | 1 => threadFunction2
  | 2 => threadFunction3
  | 3 => threadFunction4

/-- The road on the other side. -/
def opposite (k : Road) : Road := k + 2

/-- The other roads, in order. -/
def others (k : Road) : List Road := (List.finRange 4).erase k

/-- The four functions are one. -/
theorem threadFunction_eq (k : Road) : threadFunction k = threadBody k (opposite k) (others k) := by
  fin_cases k <;> rfl

/-! ### Threads and `main` together -/

/-- `pthread_cond_signal(&cond j)`. -/
def signal (j : Option Road) (pc : Road → Pc) : Road → Pc :=
  match j with
  | none => pc
  | some j => if pc j = .waiting then Function.update pc j .woken else pc

@[simp] theorem signal_none (pc : Road → Pc) : signal none pc = pc := rfl

theorem signal_heard {pc : Road → Pc} {j : Road} (h : pc j = .waiting) :
    signal (some j) pc = Function.update pc j .woken := if_pos h

theorem signal_unheard {pc : Road → Pc} {j : Road} (h : pc j ≠ .waiting) :
    signal (some j) pc = pc := if_neg h

/-- A statement of thread `k`. -/
def threadStep (startList : List Road) (k : Road) (rand : ℕ) (ret : Option Road) (σ : State) :
    Option State :=
  (threadFunction k startList rand ret σ.shared (σ.pc k)).map fun e =>
    { σ with shared := e.shared, pc := signal e.signal (Function.update σ.pc k e.pc) }

/-- A statement of `main` from the first `pthread_create` on. -/
def mainStep (startList : List Road) (σ : State) : Option State :=
  match σ.main with
  | .create k => some { σ with
      pc := Function.update σ.pc k .top
      main := if k = 3 then .signal else .create (k + 1) }
  | .signal => some { σ with pc := signal startList.head? σ.pc, main := .join 0 }
  | .join k =>
    if σ.pc k = .exited then some { σ with main := if k = 3 then .done else .join (k + 1) }
    else none
  | .done => none

/-- Who takes a step. -/
inductive Actor where
  | main
  | thread (k : Road)
deriving DecidableEq, Repr

inductive Step (startList : List Road) : State → Actor → State → Prop where
  | main {σ σ' : State} : mainStep startList σ = some σ' → Step startList σ .main σ'
  | thread {σ σ' : State} (k : Road) (rand : ℕ) (ret : Option Road) :
      threadStep startList k rand ret σ = some σ' → Step startList σ (.thread k) σ'

/-- The thread signalled by the statement of thread `k` at `p`, if that is a
`pthread_cond_signal`. -/
def signalAt (k : Road) : Pc → Option Road
  | .signalOpposite => some (opposite k)
  | .broadcast (j :: _) => some j
  | .dispatch item => if item = some k then none else item
  | _ => none

def signalled (startList : List Road) (σ : State) : Actor → Option Road
  | .main => if σ.main = .signal then startList.head? else none
  | .thread k => signalAt k (σ.pc k)

/-- A signal, if the next statement is one, is sent to a thread inside
`pthread_cond_wait`. -/
def Heard (startList : List Road) (σ : State) (a : Actor) : Prop :=
  ∀ j, signalled startList σ a = some j → σ.pc j = .waiting

/-- The size of `arr`. -/
def slots : ℕ := 15

/-- Thread `k` is about to write `s.arr[s.howMany]`. -/
def Writes (startList : List Road) (σ : State) (k : Road) : Prop :=
  (σ.pc k = .add1 ∨ σ.pc k = .add2) ∧ σ.shared.indx < startList.length

/-- The next statement, if it writes to the set, writes to a slot of it. -/
def InSlots (startList : List Road) (σ : State) : Actor → Prop
  | .main => True
  | .thread k => Writes startList σ k → σ.shared.arr.length < slots

/-- Before the first `pthread_create`. -/
def initial : State where
  shared := ⟨1, 1, [], fun _ => 0, 0⟩
  pc _ := .notCreated
  main := .create 0

/-- The states of the runs, under any scheduling. -/
def Reachable (startList : List Road) (σ : State) : Prop :=
  Transition.Reach initial (Step startList) (fun _ _ => True) σ

/-- A run along a schedule, with `rand()` and the uninitialised value fixed. -/
def exec (startList : List Road) : List Actor → State → Option State
  | [], σ => some σ
  | .main :: as, σ => (mainStep startList σ).bind (exec startList as)
  | .thread k :: as, σ => (threadStep startList k 0 none σ).bind (exec startList as)

theorem exec_reachable {startList : List Road} : ∀ {as : List Actor} {σ σ' : State},
    Reachable startList σ → exec startList as σ = some σ' → Reachable startList σ'
  | [], σ, σ', hr, h => Option.some.inj h ▸ hr
  | .main :: as, σ, σ', hr, h => by
    obtain ⟨σ1, h1, h2⟩ := Option.bind_eq_some_iff.mp h
    exact exec_reachable (hr.step trivial (.main h1)) h2
  | .thread k :: as, σ, σ', hr, h => by
    obtain ⟨σ1, h1, h2⟩ := Option.bind_eq_some_iff.mp h
    exact exec_reachable (hr.step trivial (.thread k 0 none h1)) h2

end Crossroad
end LinuxProg
