import Dockerset.Go.FilePath
import Mathlib.Data.List.Nodup

/-!
# The documents of the drawing server (`storage.yaml`, `www/js/common.js`)

The table `storage` and what the stored statements of an editor do to it. A request
is a transaction: its statements are executed one after the other, unconditionally.
The lists of documents, their creation and their removal belong to the other page
and are left out, and so is the answer to an update, which the editor drops.
-/

namespace Dockerset.Excalidraw
open Go

/-- A row of the table `storage`. -/
structure Row where
  id : Str
  time : Nat
  name : Str
  data : Str
deriving DecidableEq

/-- The table `storage`. -/
structure Storage where
  rows : List Row
  primaryKey : (rows.map Row.id).Nodup

/-- A stored statement with its values. -/
inductive Statement where
  | updateDocumentName (id name : Str)
  | updateDocumentData (id data : Str)
deriving DecidableEq

namespace Storage

/-- `UPDATE storage SET … WHERE id = :id`, for columns other than `id`. -/
def update (s : Storage) (id : Str) (set : Row → Row) (hset : ∀ row, (set row).id = row.id) : Storage where
  rows := s.rows.map fun row => if row.id = id then set row else row
  primaryKey := by
    rw [List.map_map]
    have hid : (Row.id ∘ fun row => if row.id = id then set row else row) = Row.id := by
      funext row
      rw [Function.comp_apply, apply_ite Row.id, hset, ite_self]
    rw [hid]
    exact s.primaryKey

/-- Execute a statement at the time `now`. -/
def exec (now : Nat) (s : Storage) : Statement → Storage
  | .updateDocumentName id name => s.update id (fun row => { row with time := now, name }) fun _ => rfl
  | .updateDocumentData id data => s.update id (fun row => { row with time := now, data }) fun _ => rfl

def execAll (now : Nat) (s : Storage) (transaction : List Statement) : Storage :=
  transaction.foldl (exec now) s

/-- The statement `GET_DOCUMENT`. -/
def getDocument (s : Storage) (id : Str) : Option Row := s.rows.find? fun row => row.id = id

/-- The data stored for a document. -/
def stored (s : Storage) (id : Str) : Option Str := (s.getDocument id).map Row.data

end Storage

/-- The request of `updateDocument(id, name, data)`. -/
def updateDocument (id name : Str) (data : Option Str) : List Statement :=
  match data with
  | none => [.updateDocumentName id name]
  | some data => [.updateDocumentData id data]

/-- The data that a statement stores in the document. -/
def Statement.saves (id : Str) : Statement → Option Str
  | .updateDocumentName _ _ => none
  | .updateDocumentData id' data => if id' = id then some data else none

/-- The data that a request leaves in the document. -/
def saves (id : Str) (transaction : List Statement) : Option Str :=
  (transaction.filterMap (Statement.saves id)).getLast?

section

variable {now : Nat} {s : Storage} {id id' name data : Str}

theorem getDocument_update {set : Row → Row} (hset : ∀ row, (set row).id = row.id) :
    (s.update id' set hset).getDocument id =
      (s.getDocument id).map fun row => if row.id = id' then set row else row := by
  have hid : ∀ row : Row, (if row.id = id' then set row else row).id = row.id := by
    intro row
    rw [apply_ite Row.id, hset, ite_self]
  rw [Storage.getDocument, Storage.update, List.find?_map]
  simp only [Function.comp_def, hid]
  rfl

theorem id_of_getDocument {row : Row} (h : s.getDocument id = some row) : row.id = id := by
  simpa using List.find?_some h

theorem stored_exec (stmt : Statement) :
    (s.exec now stmt).stored id = (s.stored id).map fun data => (stmt.saves id).getD data := by
  unfold Storage.stored
  cases stmt with
  | updateDocumentName id' name =>
    rw [Storage.exec, getDocument_update]
    cases s.getDocument id with
    | none => rfl
    | some row => simp [apply_ite Row.data, Statement.saves]
  | updateDocumentData id' data =>
    rw [Storage.exec, getDocument_update]
    cases hrow : s.getDocument id with
    | none => rfl
    | some row =>
      have hid := id_of_getDocument hrow
      by_cases h : id' = id
      · simp [Statement.saves, h, hid]
      · have h' : ¬ id = id' := fun heq => h heq.symm
        simp [Statement.saves, h, h', hid]

theorem stored_execAll (transaction : List Statement) :
    (s.execAll now transaction).stored id =
      (s.stored id).map fun data => (saves id transaction).getD data := by
  induction transaction using List.reverseRecOn with
  | nil => cases h : s.stored id <;> simp [Storage.execAll, saves, h]
  | append_singleton l stmt ih =>
    have hlast : saves id (l ++ [stmt]) = (stmt.saves id).or (saves id l) := by
      cases hs : stmt.saves id <;> simp [saves, List.filterMap_append, hs]
    have hexec : s.execAll now (l ++ [stmt]) = (s.execAll now l).exec now stmt := by
      simp [Storage.execAll]
    rw [hexec, stored_exec, ih, hlast]
    cases stmt.saves id <;> cases s.stored id <;> rfl

end

end Dockerset.Excalidraw
