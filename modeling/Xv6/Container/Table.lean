import Xv6.Lib.CArray
import Xv6.Lib.Prog
import Xv6.Proc.Table

/-!
# The container calls

`create_container`, `destroy_container`, `join_container`, and `leave_container` of `proc.c`, over
the globals `container_table`, `c_active`, and `c_pointer`. Each call is a `Prog`: a tree of single
reads and writes of the shared globals, in the order of the source, because the source takes no
lock around them. An access outside an array is a failure. `N` is `NCONTAINER` and `P` is
`NPROC_CONTAINER`.

`myproc` is a copy of the caller's `struct proc`, as in the source, where the calls copy `*myproc()`
into a local variable. The console output of the calls is left out. So are the fields `page_table`
and `file_descripter` of `struct container`, which no function reads or writes.
-/

namespace Xv6

open CArray

/-- `struct container`. -/
structure Container (P : ℕ) where
  id : ℤ
  active : Bool
  process_table : Fin P → Proc
  process_active : Fin P → Bool
  process_pointer : ℤ
  page_active : Fin MAX_PAGES → Bool
  page_pointer : ℤ
  file_active : Fin MAX_FILES → Bool
  file_pointer : ℤ

/-- The globals of the container calls. -/
structure Containers (N P : ℕ) where
  container_table : Fin N → Container P
  c_active : Fin N → Bool
  c_pointer : ℤ

def Container.zero (P : ℕ) : Container P :=
  ⟨0, false, fun _ => Proc.zero, fun _ => false, 0, fun _ => false, 0, fun _ => false, 0⟩

def initContainer {P : ℕ} (c : Container P) (t_id : ℤ) : Container P :=
  { c with
    id := t_id
    active := true
    process_active := fun _ => false
    page_active := fun _ => false
    file_active := fun _ => false
    process_pointer := 0
    page_pointer := 0
    file_pointer := 0 }

namespace Containers

variable {N P : ℕ}

/-- The globals at boot. -/
def boot (N P : ℕ) : Containers N P := ⟨fun _ => Container.zero P, fun _ => false, 0⟩

def setContainer (s : Containers N P) (k : Fin N) (c : Container P) : Containers N P :=
  { s with container_table := Function.update s.container_table k c }

/-! ## Accesses -/

/-- Read `c_pointer`. -/
def cPointer : Prog (Containers N P) ℤ := Prog.get fun s => some s.c_pointer

/-- Write `c_pointer`. -/
def setCPointer (v : ℤ) : Prog (Containers N P) PUnit :=
  Prog.set fun s => some { s with c_pointer := v }

/-- Read `c_active[i]`. -/
def cActive (i : ℤ) : Prog (Containers N P) Bool := Prog.get fun s => rd s.c_active i

/-- Write `c_active[i]`. -/
def setCActive (i : ℤ) (v : Bool) : Prog (Containers N P) PUnit :=
  Prog.set fun s => (wr s.c_active i v).map fun a => { s with c_active := a }

def getAt {α : Type} (id : ℤ) (f : Container P → Option α) : Prog (Containers N P) α :=
  Prog.get fun s => (rd s.container_table id).bind f

def setAt (id : ℤ) (f : Container P → Option (Container P)) : Prog (Containers N P) PUnit :=
  Prog.set fun s => (upd s.container_table id f).map fun t => { s with container_table := t }

def processPointer (id : ℤ) : Prog (Containers N P) ℤ := getAt id fun c => some c.process_pointer

def setProcessPointer (id v : ℤ) : Prog (Containers N P) PUnit :=
  setAt id fun c => some { c with process_pointer := v }

def processActive (id i : ℤ) : Prog (Containers N P) Bool := getAt id fun c => rd c.process_active i

def setProcessActive (id i : ℤ) (v : Bool) : Prog (Containers N P) PUnit :=
  setAt id fun c => (wr c.process_active i v).map fun a => { c with process_active := a }

def processPid (id i : ℤ) : Prog (Containers N P) ℤ :=
  getAt id fun c => (rd c.process_table i).map Proc.pid

def setProcess (id i : ℤ) (p : Proc) : Prog (Containers N P) PUnit :=
  setAt id fun c => (wr c.process_table i p).map fun t => { c with process_table := t }

def copyContainer (i : ℤ) (c : Container P) : Prog (Containers N P) PUnit := do
  setAt i fun d => some { d with id := c.id, active := c.active }
  setAt i fun d => some { d with process_table := c.process_table }
  setAt i fun d => some { d with process_active := c.process_active }
  setAt i fun d => some { d with process_pointer := c.process_pointer }
  setAt i fun d => some
    { d with
      page_active := c.page_active
      page_pointer := c.page_pointer
      file_active := c.file_active
      file_pointer := c.file_pointer }

/-! ## The calls -/

def nextFree (n : ℕ) (flag : ℤ → Prog (Containers N P) Bool) : Prog (Containers N P) ℤ := do
  let i ← cPointer
  match ← Prog.search (pure (n : ℤ)) (fun i => return !(← flag i)) (n + 1) (i + 1) with
  | some i => return i
  | none =>
    match ← Prog.search cPointer (fun i => return !(← flag i)) (n + 1) 0 with
    | some i => return i
    | none => return -1

def createContainer (c : Container P) : Prog (Containers N P) ℤ := do
  -- when the container table is full
  if (← cPointer) = -1 then return -1
  setCActive (← cPointer) true
  let c := initContainer c (← cPointer)
  copyContainer (← cPointer) c
  let output ← cPointer
  -- update the c_pointer
  setCPointer (← nextFree N cActive)
  return output

def destroyContainer (id : ℤ) : Prog (Containers N P) ℤ := do
  if id < 0 ∨ id ≥ N then return -1
  if !(← cActive id) then return -1
  setCActive id false
  if (← cPointer) = -1 then setCPointer id
  return 0

def joinContainer (myproc : Proc) (id : ℤ) : Prog (Containers N P) ℤ := do
  if id < 0 ∨ id ≥ N then return -1
  if !(← cActive id) then return -1
  let pointer ← processPointer id
  if pointer = -1 then return -1
  let p := { myproc with container_id := ← cPointer, cont := some id }
  setProcess id pointer p
  setProcessActive id pointer true
  setProcessPointer id (← nextFree P (processActive id))
  return 0

def leaveContainer (myproc : Proc) : Prog (Containers N P) ℤ := do
  let id := myproc.container_id
  if id < 0 ∨ id ≥ N then return -1
  if !(← cActive id) then return -1
  let member (i : ℤ) : Prog (Containers N P) Bool := do
    if (← processPid id i) = myproc.pid then processActive id i else return false
  match ← Prog.search (pure (P : ℤ)) member (P + 1) 0 with
  | some i => setProcessActive id i false
  | none => pure ⟨⟩
  return 0

/-- A container call with its arguments. -/
inductive Call (P : ℕ)
  | create (c : Container P)
  | destroy (id : ℤ)
  | join (myproc : Proc) (id : ℤ)
  | leave (myproc : Proc)

/-- The program of a call. -/
def Call.prog : Call P → Prog (Containers N P) ℤ
  | .create c => createContainer c
  | .destroy id => destroyContainer id
  | .join p id => joinContainer p id
  | .leave p => leaveContainer p

def callStep (s : Containers N P) (e : Call P × ℤ) (s' : Containers N P) : Prop :=
  (e.1.prog : Prog (Containers N P) ℤ).exec s = some (e.2, s')

end Containers

end Xv6
