import Dockerset.Data.LastWith
import Dockerset.Go.Utf8

/-!
# The DNS challenge of `acmesh/main.go`

`DoDNSAPI` runs a script and takes its verdict from what the script has printed:
the last line that starts with a marker has the exit code behind it. The output is
read with one `Read` into a buffer of fixed size, and the whole buffer is searched,
with the zeros behind the output. Without a marker the verdict is success.

`Said` is the verdict that the script (`acme_delegate`) has printed, and
`doDNSAPI_said_iff` says for which outputs that is what the program returns (`Judged`):
it depends on how much of the last marked line the buffer shows.
-/

namespace Dockerset.Acmesh
open Go Data

def acmeReturnValue : Bytes := ascii "ACME_RETVAL"

def bufferSize : Nat := 1048576

def newline : UInt8 := 10

/-- `strings.Split(s, sep)` for a `sep` that is not empty: the bytes of a separator that are still
to pass, the piece so far and the rest of `s`. -/
def splitFrom (sep : Bytes) : Nat → Bytes → Bytes → List Bytes
  | _, piece, [] => [piece]
  | skip + 1, piece, _ :: s => splitFrom sep skip piece s
  | 0, piece, x :: s =>
    if sep.isPrefixOf (x :: s) then piece :: splitFrom sep (sep.length - 1) [] s
    else splitFrom sep 0 (piece ++ [x]) s

def split (s sep : Bytes) : List Bytes := splitFrom sep 0 [] s

inductive Outcome where
  | returnsNil
  | returnsError (message : Bytes)
  | panics
deriving DecidableEq

/-- How the steps before the search turn out. -/
structure Steps where
  loadConfig : Except Bytes Unit
  /-- The secret, and its data under `env`. -/
  getSecret : Except Bytes (Option Bytes)
  unmarshalEnv : Bytes → Except Bytes Unit
  /-- The error of `os.CreateTemp` is not looked at; the file is nil then, and its name a panic. -/
  createTemp : Bool
  startProcess : Except Bytes Unit
  /-- What the process leaves in the file. -/
  stdout : Bytes
  openFile : Except Bytes Unit
  /-- An error of the read other than the end of the file. -/
  readError : Option Bytes

/-- The buffer after the read. -/
def buffer (stdout : Bytes) : Bytes :=
  stdout.take bufferSize ++ List.replicate (bufferSize - stdout.length) 0

/-- The loop over the lines; `none` is the panic of `items[1]`. -/
def scan (retval : Bytes) : List Bytes → Option Bytes
  | [] => some retval
  | line :: lines =>
    if acmeReturnValue.isPrefixOf line then
      match (split line acmeReturnValue)[1]? with
      | none => none
      | some item => scan item lines
    else scan retval lines

/-- What is made of the lines. -/
def verdict (lines : List Bytes) : Outcome :=
  match scan (ascii "0") lines with
  | none => .panics
  | some retval =>
    if retval = ascii "0" then .returnsNil
    else .returnsError (ascii "Failed to run acme.sh, error=" ++ retval ++ ascii " ...")

def doDNSAPI (s : Steps) : Outcome :=
  match s.loadConfig with
  | .error err => .returnsError err
  | .ok _ =>
  match s.getSecret with
  | .error err => .returnsError err
  | .ok none => .returnsError (ascii "no env in secret")
  | .ok (some envData) =>
  match s.unmarshalEnv envData with
  | .error err => .returnsError err
  | .ok _ =>
  if s.createTemp = false then .panics
  else
    match s.startProcess with
    | .error err => .returnsError err
    | .ok _ =>
    match s.openFile with
    | .error err => .returnsError err
    | .ok _ =>
    match s.readError with
    | some err => .returnsError err
    | none =>
      if s.stdout = [] then .returnsError (ascii "EOF")
      else verdict ((buffer s.stdout).splitOn newline)

/-! ## The exit code of a line -/

/-- The line starts with the marker. -/
def Marked (line : Bytes) : Prop := acmeReturnValue <+: line

instance : DecidablePred Marked := fun line => inferInstanceAs (Decidable (acmeReturnValue <+: line))

/-- The line has `0` between its first marker and the next one, or the end. -/
def ReadsZero (line : Bytes) : Prop :=
  line = acmeReturnValue ++ ascii "0" ∨ acmeReturnValue ++ ascii "0" ++ acmeReturnValue <+: line

instance : DecidablePred ReadsZero := fun line =>
  inferInstanceAs (Decidable (line = acmeReturnValue ++ ascii "0" ∨
    acmeReturnValue ++ ascii "0" ++ acmeReturnValue <+: line))

theorem splitFrom_skip (sep piece s : Bytes) (skip : Nat) :
    splitFrom sep skip piece s = splitFrom sep 0 piece (s.drop skip) := by
  induction skip generalizing s with
  | zero => rfl
  | succ skip ih =>
    cases s with
    | nil => rfl
    | cons x s => exact ih s

theorem splitFrom_head (sep piece s : Bytes) :
    ∃ more pieces, splitFrom sep 0 piece s = (piece ++ more) :: pieces ∧
      (more = [] ↔ s = [] ∨ sep.isPrefixOf s = true) := by
  induction s generalizing piece with
  | nil => exact ⟨[], [], by simp [splitFrom], by simp⟩
  | cons x s ih =>
    rw [splitFrom]
    split
    · next h => exact ⟨[], _, by simp; rfl, by simp [h]⟩
    · next h =>
      obtain ⟨more, pieces, heq, -⟩ := ih (piece ++ [x])
      refine ⟨x :: more, pieces, by simp [heq], by simp [h]⟩

theorem split_sep_append (x : UInt8) (sep rest : Bytes) :
    split (x :: sep ++ rest) (x :: sep) = [] :: split rest (x :: sep) := by
  have hpre : (x :: sep).isPrefixOf (x :: (sep ++ rest)) = true := by
    rw [List.isPrefixOf_iff_prefix, ← List.cons_append]
    exact List.prefix_append ..
  rw [split, List.cons_append, splitFrom, if_pos hpre, splitFrom_skip]
  simp [split]

theorem readsZero_append (rest : Bytes) :
    ReadsZero (acmeReturnValue ++ rest) ↔
      rest = ascii "0" ∨ ascii "0" ++ acmeReturnValue <+: rest := by
  rw [ReadsZero, List.append_cancel_left_eq, List.append_assoc, List.prefix_append_right_inj]

theorem ascii_zero : ascii "0" = [48] := by decide

theorem acmeReturnValue_eq : acmeReturnValue = 65 :: ascii "CME_RETVAL" := by decide

theorem zero_cons_iff (x : UInt8) (rest : Bytes) :
    x :: rest = ascii "0" ∨ ascii "0" ++ acmeReturnValue <+: x :: rest ↔
      x = 48 ∧ (rest = [] ∨ acmeReturnValue <+: rest) := by
  rw [ascii_zero, List.singleton_append, List.cons_prefix_cons, List.cons.injEq]
  constructor
  · rintro (⟨hx, hrest⟩ | ⟨hx, hrest⟩)
    · exact ⟨hx, .inl hrest⟩
    · exact ⟨hx.symm, .inr hrest⟩
  · rintro ⟨hx, hrest | hrest⟩
    · exact .inl ⟨hx, hrest⟩
    · exact .inr ⟨hx.symm, hrest⟩

theorem item_of_marked {line : Bytes} (h : Marked line) :
    ∃ item, (split line acmeReturnValue)[1]? = some item ∧ (item = ascii "0" ↔ ReadsZero line) := by
  obtain ⟨rest, rfl⟩ := h
  have hsplit : split (acmeReturnValue ++ rest) acmeReturnValue = [] :: split rest acmeReturnValue :=
    split_sep_append ..
  rw [hsplit, readsZero_append]
  cases rest with
  | nil => exact ⟨[], rfl, by decide⟩
  | cons x rest =>
    by_cases hpre : acmeReturnValue.isPrefixOf (x :: rest) = true
    · -- The next marker follows at once.
      refine ⟨[], ?_, ?_⟩
      · rw [split, splitFrom, if_pos hpre]
        rfl
      · have hx : x = 65 := by
          rw [List.isPrefixOf_iff_prefix, acmeReturnValue_eq, List.cons_prefix_cons] at hpre
          exact hpre.1.symm
        rw [zero_cons_iff, hx, ascii_zero]
        simp
    · obtain ⟨more, pieces, heq, hmore⟩ := splitFrom_head acmeReturnValue [x] rest
      refine ⟨x :: more, ?_, ?_⟩
      · rw [split, splitFrom, if_neg hpre]
        change (_ :: splitFrom acmeReturnValue 0 [x] rest)[1]? = _
        rw [heq]
        rfl
      · rw [zero_cons_iff, ← List.isPrefixOf_iff_prefix, ← hmore, ascii_zero, List.cons.injEq]

/-- The search ends with the item of the last marked line. -/
theorem scan_spec (retval : Bytes) (lines : List Bytes) :
    ∃ v, scan retval lines = some v ∧ ((∀ line ∈ lines, ¬ Marked line) → v = retval) ∧
      ∀ last, LastWith Marked lines last → (v = ascii "0" ↔ ReadsZero last) := by
  induction lines generalizing retval with
  | nil => exact ⟨retval, rfl, fun _ => rfl, fun _ h => absurd h not_lastWith_nil⟩
  | cons line lines ih =>
    by_cases hmarked : Marked line
    · obtain ⟨item, hitem, hzero⟩ := item_of_marked hmarked
      obtain ⟨v, hv, hnone, hlast⟩ := ih item
      refine ⟨v, ?_, ?_, ?_⟩
      · rw [scan, if_pos (List.isPrefixOf_iff_prefix.2 hmarked), hitem]
        exact hv
      · intro hall
        exact absurd hmarked (hall line (List.mem_cons_self ..))
      · intro last h
        rcases lastWith_cons_iff.1 h with h | ⟨rfl, -, hrest⟩
        · exact hlast last h
        · rw [hnone hrest]
          exact hzero
    · obtain ⟨v, hv, hnone, hlast⟩ := ih retval
      refine ⟨v, ?_, ?_, ?_⟩
      · rw [scan, if_neg fun hpre => hmarked (List.isPrefixOf_iff_prefix.1 hpre)]
        exact hv
      · intro hall
        exact hnone fun l hl => hall l (List.mem_cons_of_mem _ hl)
      · intro last h
        rcases lastWith_cons_iff.1 h with h | ⟨-, hline, -⟩
        · exact hlast last h
        · exact absurd hline hmarked

theorem verdict_nil_iff (lines : List Bytes) :
    verdict lines = .returnsNil ↔ ∀ last, LastWith Marked lines last → ReadsZero last := by
  obtain ⟨v, hv, hnone, hlast⟩ := scan_spec (ascii "0") lines
  have hnil : verdict lines = .returnsNil ↔ v = ascii "0" := by
    rw [verdict, hv]
    by_cases hzero : v = ascii "0"
    · simp [hzero]
    · simp [hzero]
  rw [hnil]
  constructor
  · intro hzero last h
    exact (hlast last h).1 hzero
  · intro hall
    by_cases hmarked : ∃ line ∈ lines, Marked line
    · obtain ⟨last, h⟩ := exists_lastWith hmarked
      exact (hlast last h).2 (hall last h)
    · apply hnone
      intro line hline hm
      exact hmarked ⟨line, hline, hm⟩

/-! ## The verdict of the script -/

/-- `echo "ACME_RETVAL${retval}ACME_RETVAL"`, without the newline. -/
def delegateLine (retval : Bytes) : Bytes := acmeReturnValue ++ retval ++ acmeReturnValue

/-- The last marked line of the output is the one of exit code 0. -/
def Said (stdout : Bytes) : Prop :=
  LastWith Marked (stdout.splitOn newline) (delegateLine (ascii "0"))

/-- The lines that are searched. -/
def seen (stdout : Bytes) : List Bytes := (buffer stdout).splitOn newline

/-- Every step before the search succeeds. -/
structure Steps.Ready (s : Steps) : Prop where
  loadConfig : s.loadConfig = .ok ()
  env : ∃ envData, s.getSecret = .ok (some envData) ∧ s.unmarshalEnv envData = .ok ()
  createTemp : s.createTemp = true
  startProcess : s.startProcess = .ok ()
  openFile : s.openFile = .ok ()
  readError : s.readError = none

theorem Steps.Ready.nil_iff {s : Steps} (h : s.Ready) :
    doDNSAPI s = .returnsNil ↔
      s.stdout ≠ [] ∧ ∀ last, LastWith Marked (seen s.stdout) last → ReadsZero last := by
  obtain ⟨envData, hsecret, henv⟩ := h.env
  have heq : doDNSAPI s =
      if s.stdout = [] then .returnsError (ascii "EOF") else verdict (seen s.stdout) := by
    simp only [doDNSAPI, h.loadConfig, hsecret, henv, h.createTemp, h.startProcess, h.openFile,
      h.readError]
    rfl
  rw [heq, ← verdict_nil_iff]
  by_cases hempty : s.stdout = []
  · simp [hempty]
  · simp [hempty]

theorem not_said_nil : ¬ Said [] := by
  rintro ⟨earlier, later, heq, -⟩
  have hmem : delegateLine (ascii "0") ∈ ([] : Bytes).splitOn newline := by
    rw [heq]
    simp
  exact absurd hmem (by decide)

/-! ## The lines of the output and those of the buffer -/

theorem splitOn_append (text rest : Bytes) : ∃ front piece more tail,
    text.splitOn newline = front ++ [piece] ∧ rest.splitOn newline = more :: tail ∧
      (text ++ rest).splitOn newline = front ++ (piece ++ more) :: tail := by
  induction text with
  | nil =>
    obtain ⟨more, tail, hrest⟩ := List.exists_cons_of_ne_nil (List.splitOn_ne_nil newline rest)
    exact ⟨[], [], more, tail, rfl, hrest, by simpa using hrest⟩
  | cons x text ih =>
    obtain ⟨front, piece, more, tail, htext, hrest, hboth⟩ := ih
    rw [List.cons_append, List.splitOn_cons_eq_if_modifyHead, List.splitOn_cons_eq_if_modifyHead, htext,
      hboth]
    split
    · exact ⟨[] :: front, piece, more, tail, by simp, hrest, by simp⟩
    · cases front with
      | nil => exact ⟨[], x :: piece, more, tail, by simp, hrest, by simp⟩
      | cons line front => exact ⟨(x :: line) :: front, piece, more, tail, by simp, hrest, by simp⟩

/-- The lines of what the buffer can hold of the output. -/
def shown (stdout : Bytes) : List Bytes := (stdout.take bufferSize).splitOn newline

/-- A line that is shown reads zero in the buffer: a second marker follows the zero, or nothing does,
not even the zeros behind an output that ends with this line and does not fill the buffer. -/
def ShowsZero (stdout line : Bytes) : Prop :=
  delegateLine (ascii "0") <+: line ∨ (line = acmeReturnValue ++ ascii "0" ∧
    (bufferSize ≤ stdout.length ∨ (shown stdout).getLast? ≠ some line))

/-- The last marked line that is shown, if there is one, reads zero. -/
def ShowsDone (stdout : Bytes) : Prop :=
  ∀ line, LastWith Marked (shown stdout) line → ShowsZero stdout line

theorem prefix_append_zeros_iff {text line : Bytes} {n : Nat} (htext : 0 ∉ text) :
    text <+: line ++ List.replicate n 0 ↔ text <+: line := by
  refine ⟨fun h => ?_, fun h => h.trans (List.prefix_append ..)⟩
  rcases List.prefix_or_prefix_of_prefix h (List.prefix_append line _) with hpre | ⟨rest, hrest⟩
  · exact hpre
  · cases rest with
    | nil => exact ⟨[], by simpa using hrest.symm⟩
    | cons x rest =>
      obtain ⟨t, ht⟩ := h
      rw [← hrest, List.append_assoc, List.append_cancel_left_eq] at ht
      have hx : x ∈ List.replicate n (0 : UInt8) := by simp [← ht]
      refine absurd ?_ htext
      rw [← hrest, ← List.eq_of_mem_replicate hx]
      simp

theorem marked_append_zeros_iff {line : Bytes} {n : Nat} :
    Marked (line ++ List.replicate n 0) ↔ Marked line :=
  prefix_append_zeros_iff (by decide)

theorem readsZero_append_zeros {line : Bytes} {n : Nat} :
    ReadsZero (line ++ List.replicate n 0) ↔
      delegateLine (ascii "0") <+: line ∨ (line = acmeReturnValue ++ ascii "0" ∧ n = 0) := by
  have hzero : (0 : UInt8) ∉ delegateLine (ascii "0") := by decide
  change (_ ∨ delegateLine (ascii "0") <+: _) ↔ _
  rw [prefix_append_zeros_iff hzero, or_comm]
  refine or_congr_right ⟨fun h => ?_, ?_⟩
  · cases n with
    | zero => exact ⟨by simpa using h, rfl⟩
    | succ n =>
      have hmem : (0 : UInt8) ∈ acmeReturnValue ++ ascii "0" := by simp [← h]
      exact absurd hmem (by decide)
  · rintro ⟨rfl, rfl⟩
    simp

/-- The last marked line of the buffer reads zero if the last one that is shown does so there. -/
theorem readsZero_seen_iff (stdout : Bytes) :
    (∀ last, LastWith Marked (seen stdout) last → ReadsZero last) ↔ ShowsDone stdout := by
  obtain ⟨front, piece, more, tail, hshown, hzeros, hseen⟩ := splitOn_append (stdout.take bufferSize)
    (List.replicate (bufferSize - stdout.length) 0)
  have hno : newline ∉ List.replicate (bufferSize - stdout.length) (0 : UInt8) := by
    intro hmem
    exact absurd (List.eq_of_mem_replicate hmem) (by decide)
  rw [List.splitOn_eq_singleton hno, List.cons.injEq] at hzeros
  obtain ⟨rfl, rfl⟩ := hzeros
  have hfull : bufferSize - stdout.length = 0 ↔ bufferSize ≤ stdout.length := Nat.sub_eq_zero_iff_le
  unfold ShowsDone ShowsZero
  rw [show seen stdout = _ from hseen, show shown stdout = _ from hshown, List.getLast?_concat]
  by_cases hpiece : Marked piece
  · have hpiece' : Marked (piece ++ List.replicate (bufferSize - stdout.length) 0) :=
      marked_append_zeros_iff.2 hpiece
    simp only [lastWith_concat_of hpiece, lastWith_concat_of hpiece', forall_eq,
      readsZero_append_zeros, hfull, ne_eq, not_true_eq_false, or_false]
  · have hpiece' : ¬ Marked (piece ++ List.replicate (bufferSize - stdout.length) 0) :=
      fun h => hpiece (marked_append_zeros_iff.1 h)
    simp only [lastWith_concat_of_not hpiece, lastWith_concat_of_not hpiece']
    apply forall_congr'
    intro line
    refine imp_congr_right fun hline => ?_
    have hne : some piece ≠ some line := by
      rintro h
      obtain ⟨_, _, _, hmarked, -⟩ := hline
      exact hpiece (Option.some.inj h ▸ hmarked)
    rw [ReadsZero, or_comm]
    simp [delegateLine, hne]

/-- Line `i` is the last marked one. -/
def LastMarkedAt (lines : List Bytes) (i : Nat) (line : Bytes) : Prop :=
  lines[i]? = some line ∧ Marked line ∧ ∀ j other, i < j → lines[j]? = some other → ¬ Marked other

theorem lastWith_marked_iff {lines : List Bytes} {line : Bytes} :
    LastWith Marked lines line ↔ ∃ i, LastMarkedAt lines i line :=
  lastWith_iff_getElem?

/-- A line that is shown is one of the output, or the start of one. -/
theorem prefix_of_shown {stdout : Bytes} {i : Nat} {part : Bytes} (h : (shown stdout)[i]? = some part) :
    ∃ line, (stdout.splitOn newline)[i]? = some line ∧ part <+: line := by
  obtain ⟨front, piece, more, tail, hshown, -, hboth⟩ := splitOn_append (stdout.take bufferSize)
    (stdout.drop bufferSize)
  rw [List.take_append_drop] at hboth
  rw [show shown stdout = _ from hshown] at h
  rw [hboth]
  rcases Nat.lt_trichotomy i front.length with hi | rfl | hi
  · rw [List.getElem?_append_left hi] at h
    exact ⟨part, by rw [List.getElem?_append_left hi, h], List.prefix_rfl⟩
  · rw [List.getElem?_concat_length] at h
    refine ⟨piece ++ more, by simp, ?_⟩
    rw [← Option.some.inj h]
    exact List.prefix_append ..
  · rw [List.getElem?_eq_none (by simpa using Nat.succ_le_of_lt hi)] at h
    cases h

theorem LastMarkedAt.of_shown {stdout last part : Bytes} {i : Nat}
    (hlast : LastMarkedAt (stdout.splitOn newline) i last) (hpart : (shown stdout)[i]? = some part)
    (hmarked : Marked part) : LastMarkedAt (shown stdout) i part := by
  refine ⟨hpart, hmarked, ?_⟩
  intro j other hj hother hmarked'
  obtain ⟨line, hline, hpre⟩ := prefix_of_shown hother
  exact hlast.2.2 j line hj hline (hmarked'.trans hpre)

/-- The outputs that are judged as the script has said. -/
inductive Judged (stdout : Bytes) : Prop
  /-- The last marked line is shown: it is the line of exit code 0, or does not read as zero. -/
  | whole {i : Nat} {last : Bytes} (hlast : LastMarkedAt (stdout.splitOn newline) i last)
      (hshown : (shown stdout)[i]? = some last)
      (hzero : ShowsZero stdout last → last = delegateLine (ascii "0"))
  /-- The buffer ends within the line, behind its marker: just before the second marker if it is the
  line of exit code 0, and otherwise with something else than zero behind the first. -/
  | cut {i : Nat} {last part : Bytes} (hlast : LastMarkedAt (stdout.splitOn newline) i last)
      (hshown : (shown stdout)[i]? = some part) (hmarked : Marked part) (hcut : part ≠ last)
      (hzero : if last = delegateLine (ascii "0") then part = acmeReturnValue ++ ascii "0"
        else ¬ ReadsZero part)
  /-- The buffer ends before the line, or within its marker, and the program goes by an earlier one
  or by none: that reads zero too, or this one is not of exit code 0 and there is an earlier one
  that does not read zero either. -/
  | beyond {i : Nat} {last : Bytes} (hlast : LastMarkedAt (stdout.splitOn newline) i last)
      (hshown : ∀ part, (shown stdout)[i]? = some part → ¬ Marked part)
      (hzero : if last = delegateLine (ascii "0") then
          ∀ j line, LastMarkedAt (shown stdout) j line → ReadsZero line
        else ∃ j line, LastMarkedAt (shown stdout) j line ∧ ¬ ReadsZero line)

/-- A line that is not shown as it is belongs to an output that does not fit. -/
theorem bufferSize_le_of_not_shown {stdout last : Bytes} {i : Nat}
    (hlast : LastMarkedAt (stdout.splitOn newline) i last) (h : (shown stdout)[i]? ≠ some last) :
    bufferSize ≤ stdout.length := by
  by_contra hfits
  apply h
  rw [shown, List.take_of_length_le (Nat.le_of_not_le hfits)]
  exact hlast.1

theorem showsZero_of_full {stdout line : Bytes} (hfull : bufferSize ≤ stdout.length) :
    ShowsZero stdout line ↔ ReadsZero line := by
  simp [ShowsZero, ReadsZero, delegateLine, hfull, or_comm]

section

variable {stdout last : Bytes} {i : Nat}

theorem LastMarkedAt.said_iff (hlast : LastMarkedAt (stdout.splitOn newline) i last) :
    Said stdout ↔ last = delegateLine (ascii "0") := by
  refine ⟨fun hsaid => (lastWith_marked_iff.2 ⟨i, hlast⟩).unique hsaid, ?_⟩
  rintro rfl
  exact lastWith_marked_iff.2 ⟨i, hlast⟩

theorem LastMarkedAt.showsDone_iff (hlast : LastMarkedAt (stdout.splitOn newline) i last) {part : Bytes}
    (hshown : (shown stdout)[i]? = some part) (hmarked : Marked part) :
    ShowsDone stdout ↔ ShowsZero stdout part := by
  have hpart : LastWith Marked (shown stdout) part :=
    lastWith_marked_iff.2 ⟨i, hlast.of_shown hshown hmarked⟩
  refine ⟨fun hall => hall part hpart, fun hp line hline => ?_⟩
  rwa [hline.unique hpart]

theorem LastMarkedAt.whole_iff (hlast : LastMarkedAt (stdout.splitOn newline) i last)
    (hshown : (shown stdout)[i]? = some last) :
    (ShowsDone stdout ↔ Said stdout) ↔ (ShowsZero stdout last → last = delegateLine (ascii "0")) := by
  rw [hlast.said_iff, hlast.showsDone_iff hshown hlast.2.1]
  refine ⟨fun h => h.1, fun h => ⟨h, ?_⟩⟩
  rintro rfl
  exact .inl List.prefix_rfl

theorem LastMarkedAt.cut_iff (hlast : LastMarkedAt (stdout.splitOn newline) i last) {part : Bytes}
    (hshown : (shown stdout)[i]? = some part) (hmarked : Marked part) (hcut : part ≠ last) :
    (ShowsDone stdout ↔ Said stdout) ↔
      if last = delegateLine (ascii "0") then part = acmeReturnValue ++ ascii "0"
      else ¬ ReadsZero part := by
  have hfull := bufferSize_le_of_not_shown hlast (by simpa [hshown] using hcut)
  rw [hlast.said_iff, hlast.showsDone_iff hshown hmarked, showsZero_of_full hfull]
  obtain ⟨line, hline, hpre⟩ := prefix_of_shown hshown
  rw [← Option.some.inj (hlast.1.symm.trans hline)] at hpre
  split
  · next heq =>
    have hshort : ¬ delegateLine (ascii "0") <+: part := by
      intro hlong
      rw [heq] at hpre hcut
      exact hcut (hpre.eq_of_length_le hlong.length_le)
    rw [iff_true_right heq]
    exact or_iff_left hshort
  · next hne => rw [iff_false_right hne]

theorem LastMarkedAt.beyond_iff (hlast : LastMarkedAt (stdout.splitOn newline) i last)
    (hshown : ∀ part, (shown stdout)[i]? = some part → ¬ Marked part) :
    (ShowsDone stdout ↔ Said stdout) ↔
      if last = delegateLine (ascii "0") then
        ∀ j line, LastMarkedAt (shown stdout) j line → ReadsZero line
      else ∃ j line, LastMarkedAt (shown stdout) j line ∧ ¬ ReadsZero line := by
  have hfull := bufferSize_le_of_not_shown hlast fun h => hshown last h hlast.2.1
  have hdone : ShowsDone stdout ↔ ∀ j line, LastMarkedAt (shown stdout) j line → ReadsZero line := by
    simp only [ShowsDone, lastWith_marked_iff, showsZero_of_full hfull, forall_exists_index]
    exact forall_comm
  rw [hlast.said_iff, hdone]
  split
  · next heq => rw [iff_true_right heq]
  · next hne =>
    rw [iff_false_right hne]
    simp only [not_forall, exists_prop]

end

/-- The program returns nil just if the script has said so, for an empty output and for the outputs
that `Judged` describes. -/
theorem doDNSAPI_said_iff (s : Steps) (hready : s.Ready) :
    (doDNSAPI s = .returnsNil ↔ Said s.stdout) ↔ s.stdout = [] ∨ Judged s.stdout := by
  rw [hready.nil_iff, readsZero_seen_iff]
  by_cases hempty : s.stdout = []
  · simp [hempty, not_said_nil]
  simp only [hempty, ne_eq, not_false_eq_true, true_and, false_or]
  constructor
  · intro h
    by_cases hsome : ∃ last, LastWith Marked (s.stdout.splitOn newline) last
    · obtain ⟨last, hlast⟩ := hsome
      obtain ⟨i, hlast⟩ := lastWith_marked_iff.1 hlast
      by_cases hpart : ∃ part, (shown s.stdout)[i]? = some part ∧ Marked part
      · obtain ⟨part, hshown, hmarked⟩ := hpart
        by_cases hcut : part = last
        · rw [hcut] at hshown
          exact .whole hlast hshown ((hlast.whole_iff hshown).1 h)
        · exact .cut hlast hshown hmarked hcut ((hlast.cut_iff hshown hmarked hcut).1 h)
      · have hshown : ∀ part, (shown s.stdout)[i]? = some part → ¬ Marked part :=
          fun part hpart' hmarked => hpart ⟨part, hpart', hmarked⟩
        exact .beyond hlast hshown ((hlast.beyond_iff hshown).1 h)
    · -- Without a marked line nothing is said, and the program returns nil.
      refine absurd ⟨_, h.1 fun line hline => ?_⟩ hsome
      obtain ⟨i, hi, hmarked, -⟩ := lastWith_marked_iff.1 hline
      obtain ⟨full, hfull, hpre⟩ := prefix_of_shown hi
      exact absurd (exists_lastWith ⟨full, List.mem_of_getElem? hfull, hmarked.trans hpre⟩) hsome
  · intro h
    cases h with
    | whole hlast hshown hzero => exact (hlast.whole_iff hshown).2 hzero
    | cut hlast hshown hmarked hcut hzero => exact (hlast.cut_iff hshown hmarked hcut).2 hzero
    | beyond hlast hshown hzero => exact (hlast.beyond_iff hshown).2 hzero

def stepsWith (stdout : Bytes) : Steps where
  loadConfig := .ok ()
  getSecret := .ok (some [])
  unmarshalEnv _ := .ok ()
  createTemp := true
  startProcess := .ok ()
  stdout := stdout
  openFile := .ok ()
  readError := none

theorem ready_stepsWith (stdout : Bytes) : (stepsWith stdout).Ready :=
  ⟨rfl, ⟨[], rfl, rfl⟩, rfl, rfl, rfl, rfl⟩

theorem doDNSAPI_said_of_zero :
    (stepsWith (delegateLine (ascii "0") ++ [newline])).Ready ∧
    (doDNSAPI (stepsWith (delegateLine (ascii "0") ++ [newline])) = .returnsNil ↔
      Said (delegateLine (ascii "0") ++ [newline])) := by
  have hready := ready_stepsWith (delegateLine (ascii "0") ++ [newline])
  have hsaid : Said (delegateLine (ascii "0") ++ [newline]) :=
    ⟨[], [[]], by decide +kernel, by decide, by decide⟩
  have hfits : (delegateLine (ascii "0") ++ [newline]).length ≤ bufferSize := by decide
  obtain ⟨i, hlast⟩ := lastWith_marked_iff.1 hsaid
  refine ⟨hready, (doDNSAPI_said_iff _ hready).2 (.inr (.whole hlast ?_ fun _ => rfl))⟩
  change (((delegateLine (ascii "0") ++ [newline]).take bufferSize).splitOn newline)[i]? = _
  rw [List.take_of_length_le hfits]
  exact hlast.1

/-- A script that is killed after its first line has said nothing, and the program returns nil. -/
theorem killed_early_is_done :
    (stepsWith (ascii "x" ++ [newline])).Ready ∧
    doDNSAPI (stepsWith (ascii "x" ++ [newline])) = .returnsNil ∧
    ¬ Said (ascii "x" ++ [newline]) := by
  have hready := ready_stepsWith (ascii "x" ++ [newline])
  have hnone : ∀ last, ¬ LastWith Marked ((ascii "x" ++ [newline]).splitOn newline) last := by
    rintro last ⟨earlier, later, heq, hmarked, -⟩
    have hall : ∀ line ∈ (ascii "x" ++ [newline]).splitOn newline, ¬ Marked line := by
      decide +kernel
    exact hall last (by simp [heq]) hmarked
  have hshown : shown (ascii "x" ++ [newline]) = (ascii "x" ++ [newline]).splitOn newline := by
    rw [shown, List.take_of_length_le (by decide)]
  refine ⟨hready, hready.nil_iff.2 ⟨by decide, (readsZero_seen_iff _).2 ?_⟩, hnone _⟩
  intro line hline
  change LastWith Marked (shown (ascii "x" ++ [newline])) line at hline
  rw [hshown] at hline
  exact absurd hline (hnone line)

end Dockerset.Acmesh
