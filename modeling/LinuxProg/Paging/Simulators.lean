/-
# The page-replacement simulators

The four simulators of `OS과제/과제5`. A frame table is
an `int` array of `page_frame` cells that `memset` filled with `-1`, the
marker of an empty frame; the arrays stay `page_frame` cells long, so they are
lists here. `printf` is left out.

All four simulators walk `page_reference` by `for(i=0;i<62;i+=2)` up to a
zero element (`mainLoop`). What `page_reference[i]` is depends on the type it
is read at, so the loops take it as a function `elem`, `none` outside the
array; `vector_update` has a view of its own, it takes a `char *`.
-/
import Mathlib
import LinuxProg.Lib.Buffers

namespace LinuxProg
namespace Paging

open Buffers

/-- Does the table hold the page? -/
def find (object : List ℤ) (page : ℤ) : Bool := object.contains page

@[simp] theorem find_iff {object : List ℤ} {page : ℤ} : find object page = true ↔ page ∈ object := by
  rw [find, List.contains_iff_mem]

/-- The values of `i` in `for(int i=0;i<62;i+=2)`. -/
def slots : List ℕ := (List.range 31).map (2 * ·)

/-- A simulator's main loop. The body gets `i` and `page_reference[i] - '0'`. -/
def mainLoop {S : Type} (elem : ℕ → Option ℤ) (body : S → ℕ → ℤ → Option S) :
    List ℕ → S → Option S
  | [], s => some s
  | i :: is, s => do
    let x ← elem i
    if x = 0 then some s
    else
      let s' ← body s i (x - 48)
      mainLoop elem body is s'

/-- The pages the main loop hands to its body. -/
def references (elem : ℕ → Option ℤ) : List ℕ → Option (List ℤ)
  | [] => some []
  | i :: is => do
    let x ← elem i
    if x = 0 then some [] else (references elem is).map ((x - 48) :: ·)

/-! ### FIFO -/

structure Fifo where
  queue : List ℤ
  queueNumber : ℕ
  pageFault : ℕ
deriving DecidableEq, Repr

/-- `queue_push`. -/
def queuePush (pageFrame : ℕ) (s : Fifo) (page : ℤ) : Fifo :=
  { s with
    queue := s.queue.set s.queueNumber page
    queueNumber := (s.queueNumber + 1) % pageFrame }

def fifoInit (pageFrame : ℕ) : Fifo := ⟨List.replicate pageFrame (-1), 0, 0⟩

/-- One turn of the loop in `FIFO`. -/
def fifoTurn (pageFrame : ℕ) (s : Fifo) (page : ℤ) : Fifo :=
  if find s.queue page then s
  else queuePush pageFrame { s with pageFault := s.pageFault + 1 } page

def fifo (pageFrame : ℕ) (elem : ℕ → Option ℤ) : Option Fifo :=
  mainLoop elem (fun s _ page => some (fifoTurn pageFrame s page)) slots (fifoInit pageFrame)

/-! ### LRU -/

structure Lru where
  stack : List ℤ
  page : List ℤ
  stackNumber : ℕ
  pageFault : ℕ
deriving DecidableEq, Repr

/-- `for(int i=k;i>0;i--) stack[i] = stack[i - 1];` -/
def shiftDown (stack : List ℤ) : ℕ → List ℤ
  | 0 => stack
  | k + 1 => shiftDown (stack.set (k + 1) (stack.getD k (-1))) k

/-- `for(int i=1;i<page_frame;i++) stack[i] = stack[i - 1];` -/
def shiftUp (pageFrame : ℕ) (stack : List ℤ) : List ℤ :=
  (List.range' 1 (pageFrame - 1)).foldl (fun a i => a.set i (a.getD (i - 1) (-1))) stack

/-- `page_change`. The search for the bottom of the stack stores nothing if
that page is not in the table. -/
def pageChange (pageFrame : ℕ) (s : Lru) (r : ℤ) : Lru :=
  if s.stackNumber < pageFrame then { s with page := s.page.set s.stackNumber r }
  else
    { s with
      page := s.page.set (s.page.idxOf (s.stack.getD (pageFrame - 1) (-1))) r
      stack := (shiftDown s.stack (pageFrame - 1)).set 0 r }

/-- `stack_update`. -/
def stackUpdate (pageFrame : ℕ) (stack : List ℤ) (stackNumber : ℕ) (r : ℤ) : List ℤ :=
  if stackNumber < pageFrame then (shiftDown stack stackNumber).set 0 r
  else if find stack r then
    let indx := stack.idxOf r
    let tmp := stack.getD indx (-1)
    (shiftDown stack indx).set 0 tmp
  else (shiftUp pageFrame stack).set 0 r

def lruInit (pageFrame : ℕ) : Lru :=
  ⟨List.replicate pageFrame (-1), List.replicate pageFrame (-1), 0, 0⟩

/-- One turn of the loop in `LRU`. -/
def lruTurn (pageFrame : ℕ) (s : Lru) (r : ℤ) : Lru :=
  if find s.page r then { s with stack := stackUpdate pageFrame s.stack s.stackNumber r }
  else
    let s1 := pageChange pageFrame { s with pageFault := s.pageFault + 1 } r
    { s1 with
      stack := stackUpdate pageFrame s1.stack s1.stackNumber r
      stackNumber := s1.stackNumber + 1 }

def lru (pageFrame : ℕ) (elem : ℕ → Option ℤ) : Option Lru :=
  mainLoop elem (fun s _ r => some (lruTurn pageFrame s r)) slots (lruInit pageFrame)

/-! ### SCR -/

structure Scr where
  queue : List ℤ
  pageBit : List ℤ
  queueNumber : ℕ
  pageFault : ℕ
deriving DecidableEq, Repr

/-- The `while(1)` of `queue_pagebit_change`: clear the bits from
`queue_number` on up to one that is clear. `none` if the loop takes more turns
than the fuel. -/
def chance (pageFrame : ℕ) : ℕ → List ℤ → ℕ → Option (List ℤ × ℕ)
  | 0, _, _ => none
  | fuel + 1, pageBit, queueNumber =>
    if pageBit.getD (queueNumber % pageFrame) 0 = 0 then some (pageBit, queueNumber)
    else chance pageFrame fuel (pageBit.set (queueNumber % pageFrame) 0) (queueNumber + 1)

/-- `queue_pagebit_change`. -/
def queuePagebitChange (pageFrame : ℕ) (s : Scr) (r : ℤ) : Option Scr :=
  if s.queueNumber < pageFrame then
    some { s with queue := s.queue.set s.queueNumber r, pageBit := s.pageBit.set s.queueNumber 0 }
  else do
    let (pageBit, queueNumber) ← chance pageFrame (pageFrame + 1) s.pageBit s.queueNumber
    some { s with
      queue := s.queue.set (queueNumber % pageFrame) r
      pageBit := pageBit
      queueNumber := queueNumber }

/-- `pagebit_change`. -/
def pagebitChange (s : Scr) (r : ℤ) : Scr :=
  { s with pageBit := s.pageBit.set (s.queue.idxOf r) 1 }

def scrInit (pageFrame : ℕ) : Scr :=
  ⟨List.replicate pageFrame (-1), List.replicate pageFrame 0, 0, 0⟩

/-- One turn of the loop in `SCR`. -/
def scrTurn (pageFrame : ℕ) (s : Scr) (r : ℤ) : Option Scr :=
  if find s.queue r then some (pagebitChange s r)
  else do
    let s1 ← queuePagebitChange pageFrame { s with pageFault := s.pageFault + 1 } r
    some { s1 with queueNumber := s1.queueNumber + 1 }

def scr (pageFrame : ℕ) (elem : ℕ → Option ℤ) : Option Scr :=
  mainLoop elem (fun s _ r => scrTurn pageFrame s r) slots (scrInit pageFrame)

/-! ### OPT -/

structure Opt where
  vector : List ℤ
  vectorNumber : ℕ
  pageFault : ℕ
  arr : List ℤ
deriving DecidableEq, Repr

/-- The inner loop that counts the distance to the next use; the list is the
rest of the values of `j`, and the result is what `cnt`, now `1`, ends at. -/
def distance (elem : ℕ → Option ℤ) (i : ℕ) : List ℕ → Option ℤ
  | [] => some 1
  | j :: js => do
    let y ← elem j
    if y = 0 then some 1
    else
      let x ← elem i
      if x = y then some 1 else (distance elem i js).map (· + 1)

/-- The first loop of `OPT`: it fills the global `arr`. -/
def initDistances (elem : ℕ → Option ℤ) : Option (List ℤ) :=
  fillLoop 31 (fun t => distance elem (2 * t) (slots.drop (t + 1))) (List.replicate 31 0)

/-- Is page reference `j` repeated at one of the places `k`? -/
def repeated (elem : ℕ → Option ℤ) (j : ℕ) : List ℕ → Option Bool
  | [] => some false
  | k :: ks => do
    let x ← elem j
    let y ← elem k
    if x = y then some true else repeated elem j ks

/-- `arr[j/2] = -1` for the references before `i` that are repeated up to `i`. -/
def dropRepeated (elem : ℕ → Option ℤ) (i : ℕ) (arr : List ℤ) : Option (List ℤ) :=
  (List.range (i / 2)).foldlM (fun a t => do
    let b ← repeated elem (2 * t) ((slots.drop (t + 1)).take (i / 2 - t))
    some (if b then a.set t (-1) else a)) arr

/-- `for(int j=0;j<i/2;j++) if(arr[j] > 1) arr[j]--;` -/
def countDown (i : ℕ) (arr : List ℤ) : List ℤ :=
  (List.range (i / 2)).foldl (fun a j => a.modify j fun v => if 1 < v then v - 1 else v) arr

/-- The search for the largest distance in `vector_update`. -/
def maxIndx (arr : List ℤ) (n : ℕ) : ℕ :=
  (List.range n).foldl (fun m i => if arr.getD m 0 < arr.getD i 0 then i else m) 0

/-- `vector_update`. Its last loop goes through all slots: each one with the
page of `max_indx` is overwritten, and sets `arr[max_indx]`. -/
def vectorUpdate (pageFrame : ℕ) (byte : ℕ → Option ℤ) (s : Opt) (indx : ℕ) : Option Opt := do
  let r ← byte indx
  if s.vectorNumber < pageFrame then
    some { s with vector := s.vector.set s.vectorNumber (r - 48) }
  else
    let m := maxIndx s.arr (indx / 2)
    let g ← byte (m * 2)
    some { s with
      vector := s.vector.map fun v => if v = g - 48 then r - 48 else v
      arr := if find s.vector (g - 48) then s.arr.set m (-1) else s.arr }

/-- One turn of the loop in `OPT`. -/
def optTurn (pageFrame : ℕ) (elem byte : ℕ → Option ℤ) (s : Opt) (i : ℕ) (r : ℤ) :
    Option Opt := do
  let arr ← dropRepeated elem i s.arr
  let s1 := { s with arr := countDown i arr }
  if find s1.vector r then some s1
  else
    let s2 ← vectorUpdate pageFrame byte { s1 with pageFault := s1.pageFault + 1 } i
    some { s2 with vectorNumber := s2.vectorNumber + 1 }

/-- `OPT`, reading `page_reference` through `elem`; `vector_update` reads it
through `byte`. -/
def opt (pageFrame : ℕ) (elem byte : ℕ → Option ℤ) : Option Opt := do
  let arr ← initDistances elem
  mainLoop elem (optTurn pageFrame elem byte) slots ⟨List.replicate pageFrame (-1), 0, 0, arr⟩

/-! ### Loops and reference strings -/

/-- A simulator that only looks at the page is a fold over the reference
string. -/
theorem mainLoop_eq {S : Type} (elem : ℕ → Option ℤ) (turn : S → ℤ → Option S) :
    ∀ (is : List ℕ) (s : S), mainLoop elem (fun s _ r => turn s r) is s =
      (references elem is).bind fun σ => σ.foldlM turn s
  | [], s => rfl
  | i :: is, s => by
    rw [mainLoop, references]
    cases hx : elem i with
    | none => rfl
    | some x =>
      simp only [Option.bind_eq_bind, Option.bind_some]
      split
      · rfl
      · cases ht : turn s (x - 48) with
        | none => cases references elem is <;> simp [ht]
        | some s' =>
          rw [Option.bind_some, mainLoop_eq elem turn is s']
          cases references elem is <;> simp [ht]

end Paging
end LinuxProg
