import Grapevine.Lib.Comp
import Grapevine.Lib.Tree
import Mathlib.Logic.Function.Basic

/-!
# Batches

A tree can insert or increment many keys at once.  With SQLite a batch is a transaction on the
connection that all writers share; with RocksDB it is one put after the other.  A statement of the
engine may fail, and the call returns at once.

* `Element`   what a batch does for one key; `Batch.elements`, the whole batch;
* `Sqlite`, `Rocks`   the two engines, with `fuse` the number of statements before the one that fails;
* `AllOrNothing`   what a batch should do to its tree.

Main result: `batches_allOrNothing_iff`.  With SQLite the failure must be the one of `BEGIN`, or one
after which the engine itself takes the transaction back; otherwise the transaction stays open.  With
RocksDB the elements before the failure must not have changed the tree.
-/

namespace Grapevine
open Kv

namespace Batches

variable {i : Nat}

abbrev Table := Tree Bytes Bytes

/-- `utils::increment` -/
def increment (old : Option Bytes) : Bytes :=
  match old with
  | some bytes => if bytes.length = 8 then be 8 (ofBe bytes + 1) else be 8 1
  | none => be 8 1

/-! ## what a tree can be asked -/

inductive Batch where
  | insert (pairs : List (Bytes × Bytes))
  | increment (keys : List Bytes)

/-- the methods of `KvTree` -/
inductive Op where
  | get (key : Bytes)
  | insert (key value : Bytes)
  | batch (b : Batch)
  | remove (key : Bytes)
  | iter
  | iterFrom (start : Bytes) (backwards : Bool)
  | increment (key : Bytes)
  | scanPrefix (start : Bytes)
  | clear

inductive Reply where
  | unit
  | value (v : Option Bytes)
  | rows (l : List (Bytes × Bytes))

/-- what a read sees in a table -/
def Op.read (t : Table) : Op → Reply
  | get key => .value (t.get key)
  | iter => .rows t.rows
  | iterFrom start backwards => .rows (t.iterFrom start backwards)
  | scanPrefix start => .rows (t.scanPrefix start)
  | _ => .unit

inductive Element where
  | put (key value : Bytes)
  | bump (key : Bytes)

namespace Element

def apply (t : Table) : Element → Table
  | put key value => t.insert key value
  | bump key => t.insert key (Batches.increment (t.get key))

/-- the number of its statements -/
def cost : Element → Nat
  | put _ _ => 1
  | bump _ => 2

end Element

/-- a loop over the images of the elements of a list -/
theorem forM_map {σ ε α β : Type} (f : β → Comp σ ε PUnit) (g : α → β) (l : List α) :
    (l.map g).forM f = l.forM fun a => f (g a) := by
  induction l with
  | nil => rfl
  | cons a l ih =>
    show (f (g a) >>= fun _ => (l.map g).forM f) = (f (g a) >>= fun _ => l.forM fun a => f (g a))
    rw [ih]

def applyAll (es : List Element) (t : Table) : Table := es.foldl Element.apply t

def cost (es : List Element) : Nat := (es.map Element.cost).sum

/-- the elements before the one in which the statement with the number `n` is -/
def doneBefore : List Element → Nat → List Element
  | [], _ => []
  | e :: es, n => if n < e.cost then [] else e :: doneBefore es (n - e.cost)

def Batch.elements : Batch → List Element
  | insert pairs => pairs.map fun p => .put p.1 p.2
  | increment keys => keys.map .bump

theorem cost_cons (e : Element) (es : List Element) : cost (e :: es) = e.cost + cost es := rfl

/-- an engine, with one of its trees -/
structure Backend (σ : Type) where
  run : Op → Comp σ String Reply
  table : σ → Table
  /-- the same store, when no statement is going to fail -/
  calm : σ → σ

/-- what calls one after the other return -/
def Backend.replies {σ : Type} (B : Backend σ) : List Op → σ → List (Except String Reply)
  | [], _ => []
  | o :: os, s => (B.run o s).1 :: B.replies os (B.run o s).2

/-- a batch that returns `ok` has done all its elements in order; one that fails has left the table
as it was, and no later call can tell that there was one -/
structure AllOrNothing {σ : Type} (B : Backend σ) (b : Batch) (s : σ) : Prop where
  all : ∀ r s', B.run (.batch b) s = (.ok r, s') → B.table s' = applyAll b.elements (B.table s)
  nothing : ∀ e s', B.run (.batch b) s = (.error e, s') →
    B.table s' = B.table s ∧ ∀ ops, B.replies ops s' = B.replies ops (B.calm s)

section
variable {σ : Type} {B : Backend σ} {b : Batch} {s s' : σ}

theorem allOrNothing_of_ok {r : Reply} (hrun : B.run (.batch b) s = (.ok r, s'))
    (hall : B.table s' = applyAll b.elements (B.table s)) : AllOrNothing B b s where
  all r' s'' h := by
    rw [hrun] at h
    cases h
    exact hall
  nothing e s'' h := by
    rw [hrun] at h
    cases h

theorem allOrNothing_of_error {e : String} (hrun : B.run (.batch b) s = (.error e, s'))
    (hnothing : B.table s' = B.table s ∧ ∀ ops, B.replies ops s' = B.replies ops (B.calm s)) : AllOrNothing B b s where
  all r s'' h := by
    rw [hrun] at h
    cases h
  nothing e' s'' h := by
    rw [hrun] at h
    cases h
    exact hnothing

end

/-! ## SQLite -/

namespace Sqlite

variable {Name : Type} [DecidableEq Name]

inductive Fault where
  /-- the statement has no effect; an open transaction stays open -/
  | statement
  /-- the engine also takes the open transaction back -/
  | rollback
deriving DecidableEq

/-- the connections of an engine: what is committed, and what the open transaction of the writer has
made of it -/
structure Connection (Name : Type) where
  tables : Name → Table
  transaction : Option (Name → Table)
  fuse : Option (Nat × Fault)

variable {α : Type}

def statement (run : Comp (Connection Name) String α) : Comp (Connection Name) String α := fun c =>
  match c.fuse with
  | none => run c
  | some (n + 1, fault) => run { c with fuse := some (n, fault) }
  | some (0, .statement) => (.error "statement failed", { c with fuse := none })
  | some (0, .rollback) => (.error "statement failed", { c with fuse := none, transaction := none })

def begin : Comp (Connection Name) String Unit := statement fun c =>
  match c.transaction with
  | some _ => (.error "cannot start a transaction within a transaction", c)
  | none => (.ok (), { c with transaction := some c.tables })

def commit : Comp (Connection Name) String Unit := statement fun c =>
  match c.transaction with
  | some tables => (.ok (), { c with tables := tables, transaction := none })
  | none => (.error "cannot commit - no transaction is active", c)

/-- a write on the shared connection, which commits by itself outside of a transaction -/
def execute (f : (Name → Table) → Name → Table) : Comp (Connection Name) String Unit := statement fun c =>
  match c.transaction with
  | some tables => (.ok (), { c with transaction := some (f tables) })
  | none => (.ok (), { c with tables := f c.tables })

def setTable (name : Name) (f : Table → Table) (tables : Name → Table) : Name → Table :=
  Function.update tables name (f (tables name))

def insertWithGuard (name : Name) (key value : Bytes) : Comp (Connection Name) String Unit :=
  execute (setTable name (·.insert key value))

/-- on the connection of the writer -/
def getWithGuard (name : Name) (key : Bytes) : Comp (Connection Name) String (Option Bytes) :=
  statement fun c => (.ok ((c.transaction.getD c.tables name).get key), c)

def insertBatch (name : Name) (pairs : List (Bytes × Bytes)) : Comp (Connection Name) String Unit := do
  begin
  pairs.forM fun p => insertWithGuard name p.1 p.2
  commit

def incrementBatch (name : Name) (keys : List Bytes) : Comp (Connection Name) String Unit := do
  begin
  keys.forM fun key => do
    let old ← getWithGuard name key
    insertWithGuard name key (Batches.increment old)
  commit

def incrementOne (name : Name) (key : Bytes) : Comp (Connection Name) String Reply := do
  let old ← getWithGuard name key
  insertWithGuard name key (Batches.increment old)
  return .value (some (Batches.increment old))

def unit (x : Comp (Connection Name) String Unit) : Comp (Connection Name) String Reply := do
  x
  return .unit

/-- the reads are on connections of their own, and see what is committed -/
def run (name : Name) : Op → Comp (Connection Name) String Reply
  | .insert key value => unit (insertWithGuard name key value)
  | .batch (.insert pairs) => unit (insertBatch name pairs)
  | .batch (.increment keys) => unit (incrementBatch name keys)
  | .remove key => unit (execute (setTable name (·.remove key)))
  | .increment key => incrementOne name key
  | .clear => unit (execute (setTable name fun _ => .empty))
  | op => statement fun c => (.ok (op.read (c.tables name)), c)

def backend (name : Name) : Backend (Connection Name) where
  run := run name
  table c := c.tables name
  calm c := { c with fuse := none }

/-! ### the transaction -/

def element (name : Name) : Element → Comp (Connection Name) String Unit
  | .put key value => insertWithGuard name key value
  | .bump key => do
    let old ← getWithGuard name key
    insertWithGuard name key (Batches.increment old)

def transaction (name : Name) (es : List Element) : Comp (Connection Name) String Unit := do
  begin
  es.forM (element name)
  commit

theorem run_batch (name : Name) (b : Batch) : run name (.batch b) = unit (transaction name b.elements) := by
  cases b with
  | insert pairs =>
    show unit (insertBatch name pairs) = unit (transaction name (pairs.map fun p => .put p.1 p.2))
    unfold transaction
    rw [forM_map]
    rfl
  | increment keys =>
    show unit (incrementBatch name keys) = unit (transaction name (keys.map .bump))
    unfold transaction
    rw [forM_map]
    rfl

/-- none of the next `n` statements fails -/
def Spared (fuse : Option (Nat × Fault)) (n : Nat) : Prop := ∀ i fault, fuse = some (i, fault) → n ≤ i

def burn (fuse : Option (Nat × Fault)) (n : Nat) : Option (Nat × Fault) := fuse.map fun f => (f.1 - n, f.2)

theorem burn_burn (fuse : Option (Nat × Fault)) (m n : Nat) : burn (burn fuse m) n = burn fuse (m + n) := by
  cases fuse with
  | none => rfl
  | some f => exact congrArg (fun k => some (k, f.2)) (Nat.sub_sub f.1 m n)

theorem Spared.burn {fuse : Option (Nat × Fault)} {m n : Nat} (h : Spared fuse (m + n)) : Spared (burn fuse m) n := by
  intro i fault hi
  cases fuse with
  | none => cases hi
  | some f =>
    cases hi
    have := h f.1 f.2 rfl
    omega

/-- what is left of a transaction when a statement fails -/
def left (tables : Name → Table) : Fault → Option (Name → Table)
  | .statement => some tables
  | .rollback => none

section
variable (name : Name) (tables : Name → Table)
variable {fuse : Option (Nat × Fault)}

theorem element_spared (e : Element) (now : Name → Table) (h : Spared fuse e.cost) :
    element name e ⟨tables, some now, fuse⟩ =
      (.ok (), ⟨tables, some (Function.update now name (e.apply (now name))), burn fuse e.cost⟩) := by
  cases fuse with
  | none => cases e <;> rfl
  | some f =>
    obtain ⟨i, fault⟩ := f
    have hi := h i fault rfl
    cases e with
    | put key value =>
      obtain ⟨j, rfl⟩ := Nat.exists_eq_add_of_le' (show 1 ≤ i from hi)
      rfl
    | bump key =>
      obtain ⟨j, rfl⟩ := Nat.exists_eq_add_of_le' (show 2 ≤ i from hi)
      rfl

theorem element_struck (e : Element) (now : Name → Table) (fault : Fault) (h : i < e.cost) :
    element name e ⟨tables, some now, some (i, fault)⟩ =
      (.error "statement failed", ⟨tables, left now fault, none⟩) := by
  cases e with
  | put key value =>
    obtain rfl : i = 0 := Nat.lt_one_iff.mp h
    cases fault <;> rfl
  | bump key =>
    have hi : i = 0 ∨ i = 1 := by
      have : i < 2 := h
      omega
    rcases hi with rfl | rfl
    · cases fault <;> rfl
    · cases fault <;> rfl

theorem elements_spared (es : List Element) (now : Name → Table) (h : Spared fuse (cost es)) :
    es.forM (element name) ⟨tables, some now, fuse⟩ =
      (.ok (), ⟨tables, some (Function.update now name (applyAll es (now name))), burn fuse (cost es)⟩) := by
  induction es generalizing now fuse with
  | nil =>
    have hburn : burn fuse 0 = fuse := by cases fuse <;> rfl
    show (Except.ok (), (⟨tables, some now, fuse⟩ : Connection Name)) = _
    rw [show cost [] = 0 from rfl, hburn]
    show _ = (Except.ok (), (⟨tables, some (Function.update now name (now name)), fuse⟩ : Connection Name))
    rw [Function.update_eq_self]
  | cons e es ih =>
    rw [cost_cons] at h ⊢
    have hfirst : Spared fuse e.cost := fun i fault hi => by have := h i fault hi; omega
    refine (Comp.bind_ok (element_spared name tables e now hfirst)).trans ?_
    refine (ih _ h.burn).trans ?_
    rw [burn_burn, Function.update_self, Function.update_idem]
    rfl

theorem elements_struck (es : List Element) (now : Name → Table) (fault : Fault) (h : i < cost es) :
    ∃ now', es.forM (element name) ⟨tables, some now, some (i, fault)⟩ =
      (.error "statement failed", ⟨tables, left now' fault, none⟩) := by
  induction es generalizing now i with
  | nil => exact absurd h (Nat.not_lt_zero i)
  | cons e es ih =>
    rw [cost_cons] at h
    by_cases hi : i < e.cost
    · exact ⟨now, Comp.bind_error (element_struck name tables e now fault hi)⟩
    · have hspared : Spared (some (i, fault)) e.cost := fun j f hj => by cases hj; exact Nat.le_of_not_lt hi
      obtain ⟨now', hrest⟩ := ih (Function.update now name (e.apply (now name))) (show i - e.cost < cost es by omega)
      exact ⟨now', (Comp.bind_ok (element_spared name tables e now hspared)).trans hrest⟩

theorem transaction_spared (es : List Element) (h : Spared fuse (cost es + 2)) :
    ∃ fuse', transaction name es ⟨tables, none, fuse⟩ =
      (.ok (), ⟨Function.update tables name (applyAll es (tables name)), none, fuse'⟩) := by
  have hbegin : begin ⟨tables, none, fuse⟩ = (.ok (), ⟨tables, some tables, burn fuse 1⟩) := by
    cases fuse with
    | none => rfl
    | some f =>
      obtain ⟨j, hj⟩ := Nat.exists_eq_add_of_le' (show 1 ≤ f.1 from by have := h f.1 f.2 rfl; omega)
      obtain ⟨i, fault⟩ := f
      cases hj
      rfl
  have hloop : Spared (burn fuse 1) (cost es) := by
    apply Spared.burn
    intro i fault hi
    have := h i fault hi
    omega
  have hlast : Spared (burn (burn fuse 1) (cost es)) 1 := by
    rw [burn_burn]
    apply Spared.burn
    intro i fault hi
    have := h i fault hi
    omega
  refine ⟨burn (burn (burn fuse 1) (cost es)) 1, ?_⟩
  refine (Comp.bind_ok hbegin).trans ((Comp.bind_ok (elements_spared name tables es tables hloop)).trans ?_)
  cases hfuse : burn (burn fuse 1) (cost es) with
  | none => rfl
  | some f =>
    obtain ⟨i, fault⟩ := f
    obtain ⟨j, rfl⟩ := Nat.exists_eq_add_of_le' (hlast i fault hfuse)
    rfl

/-- a failure leaves an open transaction, unless none was begun or the engine took it back -/
theorem transaction_struck (es : List Element) (fault : Fault) (h : i < cost es + 2) :
    ∃ o, transaction name es ⟨tables, none, some (i, fault)⟩ =
      (.error "statement failed", ⟨tables, o, none⟩) ∧ (o = none ↔ i = 0 ∨ fault = .rollback) := by
  have hleft : ∀ now : Name → Table, left now fault = none ↔ fault = .rollback := by
    intro now
    cases fault with
    | statement => exact iff_of_false nofun nofun
    | rollback => exact iff_of_true rfl rfl
  cases i with
  | zero =>
    refine ⟨none, ?_, iff_of_true rfl (Or.inl rfl)⟩
    cases fault <;> rfl
  | succ i =>
    have hbegin : begin ⟨tables, none, some (i + 1, fault)⟩ = (.ok (), ⟨tables, some tables, some (i, fault)⟩) := rfl
    have hopen : ∀ now : Name → Table, left now fault = none ↔ i + 1 = 0 ∨ fault = .rollback := fun now =>
      (hleft now).trans (or_iff_right (Nat.succ_ne_zero i)).symm
    by_cases hi : i < cost es
    · obtain ⟨now, hrest⟩ := elements_struck name tables es tables fault hi
      exact ⟨left now fault, (Comp.bind_ok hbegin).trans (Comp.bind_error hrest), hopen now⟩
    · -- the failure is the one of `COMMIT`
      have hspared : Spared (some (i, fault)) (cost es) := fun j f hj => by cases hj; exact Nat.le_of_not_lt hi
      have hzero : burn (some (i, fault)) (cost es) = some (0, fault) :=
        congrArg (fun k => some (k, fault)) (show i - cost es = 0 by omega)
      refine ⟨left (Function.update tables name (applyAll es (tables name))) fault, ?_, hopen _⟩
      refine (Comp.bind_ok hbegin).trans ((Comp.bind_ok (elements_spared name tables es tables hspared)).trans ?_)
      rw [hzero]
      cases fault <;> rfl

/-- with SQLite, the statement that fails is `BEGIN`, or the engine takes the transaction back -/
theorem allOrNothing_iff (b : Batch) (fuse : Option (Nat × Fault)) :
    AllOrNothing (backend name) b ⟨tables, none, fuse⟩ ↔
      ∀ i fault, fuse = some (i, fault) → i < cost b.elements + 2 → i = 0 ∨ fault = .rollback := by
  have hrun := congrFun (run_batch name b) ⟨tables, none, fuse⟩
  by_cases hspared : Spared fuse (cost b.elements + 2)
  · -- nothing fails
    obtain ⟨fuse', hok⟩ := transaction_spared name tables b.elements hspared
    exact iff_of_true (allOrNothing_of_ok (hrun.trans (Comp.bind_ok hok)) (Function.update_self _ _ _))
      fun i fault hi hlt => absurd (hspared i fault hi) (Nat.not_le.mpr hlt)
  · obtain ⟨i, fault, hi, hlt⟩ : ∃ i fault, fuse = some (i, fault) ∧ i < cost b.elements + 2 := by
      unfold Spared at hspared
      push Not at hspared
      exact hspared
    subst hi
    obtain ⟨o, herror, ho⟩ := transaction_struck name tables b.elements fault hlt
    have hcond : (∀ j f, some (i, fault) = some (j, f) → j < cost b.elements + 2 → j = 0 ∨ f = Fault.rollback) ↔ o = none := by
      rw [ho]
      refine ⟨fun h => h i fault rfl hlt, fun h j f hj _ => ?_⟩
      cases hj
      exact h
    rw [hcond]
    have hfail := hrun.trans (Comp.bind_error herror)
    refine ⟨fun h => ?_, fun hnone => allOrNothing_of_error hfail ?_⟩
    · -- the next batch cannot begin
      have hsame := (h.nothing _ _ hfail).2 [.batch (.insert [])]
      cases o with
      | none => rfl
      | some now => cases hsame
    · rw [hnone]
      exact ⟨rfl, fun ops => rfl⟩

end

end Sqlite

/-! ## RocksDB -/

namespace Rocks

variable {Name : Type} [DecidableEq Name] {α : Type}

structure Store (Name : Type) where
  tables : Name → Table
  fuse : Option Nat

def statement (run : Comp (Store Name) String α) : Comp (Store Name) String α := fun s =>
  match s.fuse with
  | none => run s
  | some (n + 1) => run { s with fuse := some n }
  | some 0 => (.error "operation failed", { s with fuse := none })

def write (name : Name) (f : Table → Table) : Comp (Store Name) String Unit := statement fun s =>
  (.ok (), { s with tables := Function.update s.tables name (f (s.tables name)) })

def putCf (name : Name) (key value : Bytes) : Comp (Store Name) String Unit := write name (·.insert key value)

def getCf (name : Name) (key : Bytes) : Comp (Store Name) String (Option Bytes) :=
  statement fun s => (.ok ((s.tables name).get key), s)

def insertBatch (name : Name) (pairs : List (Bytes × Bytes)) : Comp (Store Name) String Unit :=
  pairs.forM fun p => putCf name p.1 p.2

def incrementBatch (name : Name) (keys : List Bytes) : Comp (Store Name) String Unit :=
  keys.forM fun key => do
    let old ← getCf name key
    putCf name key (Batches.increment old)

def incrementOne (name : Name) (key : Bytes) : Comp (Store Name) String Reply := do
  let old ← getCf name key
  putCf name key (Batches.increment old)
  return .value (some (Batches.increment old))

/-- the `clear` of the trait -/
def clear (name : Name) : Comp (Store Name) String Unit := do
  let rows ← Comp.gets fun s => (s.tables name).rows
  rows.forM fun row => write name (·.remove row.1)

def unit (x : Comp (Store Name) String Unit) : Comp (Store Name) String Reply := do
  x
  return .unit

def run (name : Name) : Op → Comp (Store Name) String Reply
  | .insert key value => unit (putCf name key value)
  | .batch (.insert pairs) => unit (insertBatch name pairs)
  | .batch (.increment keys) => unit (incrementBatch name keys)
  | .remove key => unit (write name (·.remove key))
  | .increment key => incrementOne name key
  | .clear => unit (clear name)
  | op => statement fun s => (.ok (op.read (s.tables name)), s)

def backend (name : Name) : Backend (Store Name) where
  run := run name
  table s := s.tables name
  calm s := { s with fuse := none }

/-! ### one put after the other -/

def element (name : Name) : Element → Comp (Store Name) String Unit
  | .put key value => putCf name key value
  | .bump key => do
    let old ← getCf name key
    putCf name key (Batches.increment old)

theorem run_batch (name : Name) (b : Batch) : run name (.batch b) = unit (b.elements.forM (element name)) := by
  cases b with
  | insert pairs =>
    show unit (insertBatch name pairs) = unit ((pairs.map fun p => .put p.1 p.2).forM (element name))
    rw [forM_map]
    rfl
  | increment keys =>
    show unit (incrementBatch name keys) = unit ((keys.map .bump).forM (element name))
    rw [forM_map]
    rfl

section
variable (name : Name)
variable {fuse : Option Nat}

theorem element_spared (e : Element) (tables : Name → Table) (h : ∀ i, fuse = some i → e.cost ≤ i) :
    element name e ⟨tables, fuse⟩ =
      (.ok (), ⟨Function.update tables name (e.apply (tables name)), fuse.map (· - e.cost)⟩) := by
  cases fuse with
  | none => cases e <;> rfl
  | some i =>
    have hi := h i rfl
    cases e with
    | put key value =>
      obtain ⟨j, rfl⟩ := Nat.exists_eq_add_of_le' (show 1 ≤ i from hi)
      rfl
    | bump key =>
      obtain ⟨j, rfl⟩ := Nat.exists_eq_add_of_le' (show 2 ≤ i from hi)
      rfl

theorem element_struck (e : Element) (tables : Name → Table) (h : i < e.cost) :
    element name e ⟨tables, some i⟩ = (.error "operation failed", ⟨tables, none⟩) := by
  cases e with
  | put key value =>
    obtain rfl : i = 0 := Nat.lt_one_iff.mp h
    rfl
  | bump key =>
    have hi : i = 0 ∨ i = 1 := by
      have : i < 2 := h
      omega
    rcases hi with rfl | rfl
    · rfl
    · rfl

theorem elements_spared (es : List Element) (tables : Name → Table) (h : ∀ i, fuse = some i → cost es ≤ i) :
    ∃ fuse', es.forM (element name) ⟨tables, fuse⟩ =
      (.ok (), ⟨Function.update tables name (applyAll es (tables name)), fuse'⟩) := by
  induction es generalizing tables fuse with
  | nil =>
    refine ⟨fuse, ?_⟩
    show _ = (Except.ok (), (⟨Function.update tables name (tables name), fuse⟩ : Store Name))
    rw [Function.update_eq_self]
    rfl
  | cons e es ih =>
    have hfirst : ∀ i, fuse = some i → e.cost ≤ i := fun i hi => by have := h i hi; rw [cost_cons] at this; omega
    have hrest : ∀ i, fuse.map (· - e.cost) = some i → cost es ≤ i := by
      intro i hi
      obtain ⟨j, hj, rfl⟩ := Option.map_eq_some_iff.mp hi
      have := h j hj
      rw [cost_cons] at this
      omega
    obtain ⟨fuse', hrun⟩ := ih (Function.update tables name (e.apply (tables name))) hrest
    refine ⟨fuse', (Comp.bind_ok (element_spared name e tables hfirst)).trans (hrun.trans ?_)⟩
    rw [Function.update_self, Function.update_idem]
    rfl

theorem elements_struck (es : List Element) (tables : Name → Table) (h : i < cost es) :
    es.forM (element name) ⟨tables, some i⟩ =
      (.error "operation failed", ⟨Function.update tables name (applyAll (doneBefore es i) (tables name)), none⟩) := by
  induction es generalizing tables i with
  | nil => exact absurd h (Nat.not_lt_zero i)
  | cons e es ih =>
    rw [cost_cons] at h
    by_cases hi : i < e.cost
    · refine (Comp.bind_error (element_struck name e tables hi)).trans ?_
      rw [doneBefore, if_pos hi]
      show _ = (Except.error _, (⟨Function.update tables name (tables name), none⟩ : Store Name))
      rw [Function.update_eq_self]
    · have hfirst : ∀ j, some i = some j → e.cost ≤ j := fun j hj => by cases hj; exact Nat.le_of_not_lt hi
      refine (Comp.bind_ok (element_spared name e tables hfirst)).trans ?_
      refine (ih _ (show i - e.cost < cost es by omega)).trans ?_
      rw [doneBefore, if_neg hi, Function.update_self, Function.update_idem]
      rfl

/-- with RocksDB, the elements before the one that fails have not changed the tree -/
theorem allOrNothing_iff (b : Batch) (tables : Name → Table) (fuse : Option Nat) :
    AllOrNothing (backend name) b ⟨tables, fuse⟩ ↔
      ∀ i, fuse = some i → i < cost b.elements → applyAll (doneBefore b.elements i) (tables name) = tables name := by
  have hrun := congrFun (run_batch name b) ⟨tables, fuse⟩
  by_cases hspared : ∀ i, fuse = some i → cost b.elements ≤ i
  · obtain ⟨fuse', hok⟩ := elements_spared name b.elements tables hspared
    exact iff_of_true (allOrNothing_of_ok (hrun.trans (Comp.bind_ok hok)) (Function.update_self _ _ _))
      fun i hi hlt => absurd (hspared i hi) (Nat.not_le.mpr hlt)
  · obtain ⟨i, hi, hlt⟩ : ∃ i, fuse = some i ∧ i < cost b.elements := by
      push Not at hspared
      exact hspared
    subst hi
    have hfail := hrun.trans (Comp.bind_error (elements_struck name b.elements tables hlt))
    refine ⟨fun h j hj _ => ?_, fun h => allOrNothing_of_error hfail ?_⟩
    · cases hj
      have hsame := (h.nothing _ _ hfail).1
      change Function.update tables name _ name = tables name at hsame
      rw [Function.update_self] at hsame
      exact hsame
    · rw [h i rfl hlt, Function.update_eq_self]
      exact ⟨rfl, fun ops => rfl⟩

end

end Rocks

/-! ## both -/

variable {Name : Type} [DecidableEq Name]

/-- **Batches.**  When no transaction is open before the call, a batch is all or nothing exactly
* with SQLite, if the statement that fails is the one that begins the transaction, or if the engine
  takes the transaction back by itself;
* with RocksDB, if the elements before the failure leave the table as it was. -/
theorem batches_allOrNothing_iff (name : Name) (tables : Name → Table) (b : Batch) :
    (∀ fuse : Option (Nat × Sqlite.Fault), AllOrNothing (Sqlite.backend name) b ⟨tables, none, fuse⟩ ↔
      ∀ i fault, fuse = some (i, fault) → i < cost b.elements + 2 → i = 0 ∨ fault = .rollback) ∧
    ∀ fuse : Option Nat, AllOrNothing (Rocks.backend name) b ⟨tables, fuse⟩ ↔
      ∀ i, fuse = some i → i < cost b.elements → applyAll (doneBefore b.elements i) (tables name) = tables name :=
  ⟨Sqlite.allOrNothing_iff name tables b, Rocks.allOrNothing_iff name b tables⟩

/-- the second of two rows cannot be inserted: with SQLite the transaction stays open, with RocksDB
the first row stays -/
theorem batches_broken :
    (¬ ∀ (name : Unit) (tables : Unit → Table) b fuse, AllOrNothing (Sqlite.backend name) b ⟨tables, none, fuse⟩) ∧
    ¬ ∀ (name : Unit) (tables : Unit → Table) b fuse, AllOrNothing (Rocks.backend name) b ⟨tables, fuse⟩ := by
  refine ⟨fun hall => ?_, fun hall => ?_⟩
  · have h := hall () (fun _ => .empty) (.insert [([1], []), ([2], [])]) (some (2, .statement))
    have hsame := (h.nothing "statement failed" _ rfl).2 [.batch (.insert [])]
    cases hsame
  · have h := hall () (fun _ => .empty) (.insert [([1], []), ([2], [])]) (some 1)
    have hsame := congrArg Tree.rows (h.nothing "operation failed" _ rfl).1
    cases hsame

end Batches
end Grapevine
