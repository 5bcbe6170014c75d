import Dockerset.Data.Delivery
import Dockerset.Data.InsertionMap
import Dockerset.Excalidraw.Storage
import Dockerset.Logic.Runs

/-!
# Saving a drawing (`www/js/common.js`, `www/js/editor.js`)

Every change of the drawing sets a timer anew and leaves its call in `funcMap`, where
a hidden or closing page finds it. The timer, and each of those two, sends a request
without waiting for the ones before, and a request says nothing about its place among
them: the server executes them as they come in.

What is sent after the last change carries the data of that change (`Editing`), but
it is what the document keeps only if no older request comes in after it
(`last_edit_wins`).

`JSON.stringify` is left out: a change is the text it makes. The session of the page
starts when the document has been loaded, as it shows no drawing before that.
-/

namespace Dockerset.Excalidraw
open Go Data Logic

/-! ## Debounced functions -/

section

variable {α : Type}

/-- The object `funcMap`: the calls to make before the page goes away, each under the
`uuid` of its function. -/
structure FuncMap (α : Type) where
  ignore : Bool
  funcs : InsertionMap Nat α

/-- The functions among `Object.values(funcMap)`, unless it says to ignore them. -/
def FuncMap.flush (funcMap : FuncMap α) : List α := if funcMap.ignore then [] else funcMap.funcs.values

/-- A function that `superDebounce` has made. The timer that is set has the time it is
due and the arguments of its call. -/
structure Debounced (α : Type) where
  uuid : Nat
  delay : Nat
  beforeunload : Bool
  timer : Option (Nat × α)

/-- `superDebounce(func, delay, beforeunload)`. -/
def superDebounce (uuid : Nat) (delay : Nat := 1000) (beforeunload : Bool := false) : Debounced α where
  uuid
  delay
  beforeunload
  timer := none

/-- A call of the function that `superDebounce` returns. -/
def Debounced.call (f : Debounced α) (now : Nat) (args : α) (funcMap : FuncMap α) :
    Debounced α × FuncMap α :=
  ({ f with timer := some (now + f.delay, args) },
    if f.beforeunload then { funcMap with funcs := funcMap.funcs.set f.uuid args } else funcMap)

/-- The timer goes off, when it is due: the call it makes. -/
def Debounced.timeout (f : Debounced α) (now : Nat) (funcMap : FuncMap α) :
    Option (α × Debounced α × FuncMap α) :=
  match f.timer with
  | some (due, args) =>
    if due ≤ now then
      some (args, { f with timer := none }, { funcMap with funcs := funcMap.funcs.delete f.uuid })
    else none
  | none => none

end

/-! ## The editor -/

/-- The arguments of `updateDocument`. -/
structure Call where
  id : Str
  name : Str
  data : Option Str
deriving DecidableEq

def Call.request (call : Call) : List Statement := updateDocument call.id call.name call.data

/-- The page of a document. -/
structure Editor where
  id : Str
  name : Str
  funcMap : FuncMap Call
  updateDocumentDebounce : Debounced Call

/-- `onDocumentChange`, from the text of the drawing. -/
def Editor.onDocumentChange (editor : Editor) (now : Nat) (data : Str) : Editor :=
  let (f, funcMap) :=
    editor.updateDocumentDebounce.call now ⟨editor.id, editor.name, some data⟩ editor.funcMap
  { editor with updateDocumentDebounce := f, funcMap }

/-- `onChangeName`, from the answer to the prompt: the editor and its request. -/
def Editor.onChangeName (editor : Editor) (newName : Option Str) : Editor × List Call :=
  match newName with
  | none | some [] => (editor, [])
  | some newName => ({ editor with name := newName }, [⟨editor.id, newName, none⟩])

/-- A page, what it has sent, and the server. -/
structure Session where
  now : Nat
  editor : Editor
  requests : List (Posted (List Statement))
  storage : Storage

inductive Event where
  /-- Time passes. -/
  | tick (ms : Nat)
  | documentChange (data : Str)
  | changeName (newName : Option Str)
  | timeout
  | visibilitychange (hidden : Bool)
  | beforeunload
  /-- The server receives the request with this number. -/
  | receive (i : Nat)
deriving DecidableEq

/-- The page makes the calls of `updateDocument` one after the other. -/
def Session.send (s : Session) (calls : List Call) : Session :=
  { s with requests := post s.requests (calls.map Call.request) }

def step (s : Session) : Event → Option Session
  | .tick ms => some { s with now := s.now + ms }
  | .documentChange data => some { s with editor := s.editor.onDocumentChange s.now data }
  | .changeName newName =>
    let (editor, calls) := s.editor.onChangeName newName
    some ({ s with editor }.send calls)
  | .timeout => do
    let (call, f, funcMap) ← s.editor.updateDocumentDebounce.timeout s.now s.editor.funcMap
    some ({ s with editor := { s.editor with updateDocumentDebounce := f, funcMap } }.send [call])
  | .visibilitychange hidden => some (if hidden then s.send s.editor.funcMap.flush else s)
  | .beforeunload => some (s.send s.editor.funcMap.flush)
  | .receive i => do
    let (transaction, requests) ← deliver s.requests i
    some { s with requests, storage := s.storage.execAll s.now transaction }

/-- The editor of a document that the storage has, when it has loaded it. -/
def openEditor (storage : Storage) (id : Str) (uuid now : Nat) : Option Session := do
  let row ← storage.getDocument id
  let editor : Editor :=
    { id, name := row.name, funcMap := ⟨false, .empty⟩, updateDocumentDebounce := superDebounce uuid 1000 true }
  some { now, editor, requests := [], storage }

/-! ## What a step does -/

/-- A call that the page has yet to make, or may make. -/
def Editor.Holds (editor : Editor) (call : Call) : Prop :=
  (∃ due, editor.updateDocumentDebounce.timer = some (due, call)) ∨
    ∃ uuid, (uuid, call) ∈ editor.funcMap.funcs.entries

/-- There is no other debounced function than the one of the editor. -/
def Editor.OneKey (editor : Editor) : Prop :=
  editor.updateDocumentDebounce.beforeunload = true ∧
    ∀ e ∈ editor.funcMap.funcs.entries, e.1 = editor.updateDocumentDebounce.uuid

/-- The page goes on without a change of the drawing: it sends calls that it holds, or
a name. -/
structure Sends (s s' : Session) : Prop where
  storage : s'.storage = s.storage
  requests : ∃ calls : List Call, s'.requests = post s.requests (calls.map Call.request) ∧
    ∀ call ∈ calls, s.editor.Holds call ∨ call.data = none
  holds : ∀ call, s'.editor.Holds call → s.editor.Holds call
  oneKey : s.editor.OneKey → s'.editor.OneKey

section

variable {s s' : Session} {e : Event} {id data : Str} {call : Call}

theorem mem_flush {funcMap : FuncMap Call} (h : call ∈ funcMap.flush) :
    ∃ uuid, (uuid, call) ∈ funcMap.funcs.entries := by
  unfold FuncMap.flush at h
  split at h
  · cases h
  · obtain ⟨⟨uuid, call'⟩, hmem, rfl⟩ := List.mem_map.1 h
    exact ⟨uuid, hmem⟩

theorem sends_of_editor_eq (calls : List Call) (heditor : s'.editor = s.editor)
    (hstorage : s'.storage = s.storage)
    (hrequests : s'.requests = post s.requests (calls.map Call.request))
    (hcalls : ∀ call ∈ calls, s.editor.Holds call ∨ call.data = none) : Sends s s' where
  storage := hstorage
  requests := ⟨calls, hrequests, hcalls⟩
  holds := by simp [heditor]
  oneKey := by simp [heditor]

theorem sends_flush (s : Session) : Sends s (s.send s.editor.funcMap.flush) := by
  refine sends_of_editor_eq s.editor.funcMap.flush rfl rfl rfl ?_
  intro call hcall
  exact .inl (.inr (mem_flush hcall))

theorem sends_timeout (h : step s .timeout = some s') : Sends s s' := by
  obtain ⟨⟨call, f, funcMap⟩, htimeout, heq⟩ := Option.bind_eq_some_iff.1 h
  cases heq
  unfold Debounced.timeout at htimeout
  split at htimeout
  · next due args htimer =>
    split at htimeout
    · obtain ⟨rfl, rfl, rfl⟩ : args = call ∧ _ = f ∧ _ = funcMap := by simpa using htimeout
      refine ⟨rfl, ⟨[args], rfl, ?_⟩, ?_, ?_⟩
      · intro call hcall
        rw [List.mem_singleton.1 hcall]
        exact .inl (.inl ⟨due, htimer⟩)
      · rintro call (⟨due, hdue⟩ | ⟨uuid, hmem⟩)
        · cases hdue
        · exact .inr ⟨uuid, (InsertionMap.mem_entries_delete.1 hmem).1⟩
      · rintro ⟨hbefore, hkey⟩
        exact ⟨hbefore, fun e he => hkey e (InsertionMap.mem_entries_delete.1 he).1⟩
    · cases htimeout
  · cases htimeout

theorem sends_changeName {newName : Option Str} (h : step s (.changeName newName) = some s') :
    Sends s s' := by
  rw [← Option.some.inj h]
  rcases newName with _ | _ | ⟨c, rest⟩
  · exact sends_of_editor_eq [] rfl rfl rfl (by simp)
  · exact sends_of_editor_eq [] rfl rfl rfl (by simp)
  · refine ⟨rfl, ⟨[⟨s.editor.id, c :: rest, none⟩], rfl, ?_⟩, fun _ h => h, fun h => h⟩
    intro call hcall
    rw [List.mem_singleton.1 hcall]
    exact .inr rfl

/-- A step changes the drawing, or lets the server execute a request, or makes calls of
the page. -/
theorem step_cases (h : step s e = some s') :
    (∃ data, e = .documentChange data ∧
      s' = { s with editor := s.editor.onDocumentChange s.now data }) ∨
    (∃ i transaction requests, e = .receive i ∧ deliver s.requests i = some (transaction, requests) ∧
      s' = { s with requests, storage := s.storage.execAll s.now transaction }) ∨
    Sends s s' := by
  cases e with
  | tick ms =>
    rw [← Option.some.inj h]
    exact .inr (.inr (sends_of_editor_eq [] rfl rfl (by simp [post]) (by simp)))
  | documentChange data => exact .inl ⟨data, rfl, (Option.some.inj h).symm⟩
  | changeName newName => exact .inr (.inr (sends_changeName h))
  | timeout => exact .inr (.inr (sends_timeout h))
  | visibilitychange hidden =>
    rw [← Option.some.inj h]
    cases hidden with
    | true => exact .inr (.inr (sends_flush s))
    | false => exact .inr (.inr (sends_of_editor_eq [] rfl rfl (by simp [post]) (by simp)))
  | beforeunload =>
    rw [← Option.some.inj h]
    exact .inr (.inr (sends_flush s))
  | receive i =>
    obtain ⟨⟨transaction, requests⟩, hdeliver, heq⟩ := Option.bind_eq_some_iff.1 h
    exact .inr (.inl ⟨i, transaction, requests, rfl, hdeliver, (Option.some.inj heq).symm⟩)

end

/-! ## What holds along a run -/

/-- A step of the page or of the server. -/
def Steps (s : Session) (e : Event) (s' : Session) : Prop := step s e = some s'

/-- The server receives no save that a later one of other data has overtaken. -/
def InOrder (id : Str) (s : Session) : Event → Prop
  | .receive i => NotOvertaken (saves id) s.requests i
  | _ => True

instance (id : Str) (s : Session) : (e : Event) → Decidable (InOrder id s e)
  | .receive i => inferInstanceAs (Decidable (NotOvertaken (saves id) s.requests i))
  | .tick _ | .documentChange _ | .changeName _ | .timeout | .visibilitychange _ | .beforeunload =>
    .isTrue trivial

def StepsInOrder (id : Str) (s : Session) (e : Event) (s' : Session) : Prop :=
  step s e = some s' ∧ InOrder id s e

/-- The runs of a system whose steps may come at any time. -/
abbrev RunsBy (step : Session → Event → Session → Prop) := Runs step fun _ _ => True

/-- The document holds the data of the save that was sent last of those executed. -/
def InStep (id initial : Str) (s : Session) : Prop :=
  s.storage.stored id = some ((lastDelivered (saves id) s.requests).getD initial)

/-- The drawing was changed to `data`, when the page had sent `n` requests, and not since. -/
structure Editing (id data : Str) (n : Nat) (s : Session) : Prop where
  holds : ∀ call, s.editor.Holds call → call.data = some data
  sent : ∀ m ∈ (s.requests.map Posted.msg).drop n, ∀ d ∈ saves id m, d = data
  length : n ≤ s.requests.length

section

variable {s s' : Session} {e : Event} {id data initial : Str} {n : Nat} {log : List Event} {call : Call}

theorem mem_saves_request {d : Str} (h : d ∈ saves id call.request) : call.data = some d := by
  unfold Call.request updateDocument at h
  split at h
  · cases h
  · next data hdata =>
    rw [hdata]
    simp only [saves, List.filterMap_cons, List.filterMap_nil, Statement.saves] at h
    split at h
    · cases h
    · next heq =>
      split at heq
      · cases heq
        exact h
      · cases heq

theorem InStep.step (hstep : StepsInOrder id s e s') (h : InStep id initial s) :
    InStep id initial s' := by
  obtain ⟨hstep, horder⟩ := hstep
  unfold InStep at h ⊢
  rcases step_cases hstep with ⟨data, -, rfl⟩ | ⟨i, transaction, requests, rfl, hdeliver, rfl⟩ | hsends
  · exact h
  · rw [stored_execAll, h, Option.map_some]
    cases hsaves : saves id transaction with
    | none => rw [lastDelivered_deliver_none hdeliver hsaves, Option.getD_none]
    | some d =>
      rw [lastDelivered_deliver hdeliver hsaves horder]
      rfl
  · obtain ⟨calls, hrequests, -⟩ := hsends.requests
    rw [hsends.storage, hrequests, lastDelivered_post]
    exact h

theorem Editor.OneKey.onDocumentChange {editor : Editor} (h : editor.OneKey) (now : Nat) (data : Str) :
    (editor.onDocumentChange now data).OneKey ∧
      ∀ call, (editor.onDocumentChange now data).Holds call → call.data = some data := by
  obtain ⟨hbefore, hkey⟩ := h
  have hentries : ∀ e ∈ (editor.onDocumentChange now data).funcMap.funcs.entries,
      e = (editor.updateDocumentDebounce.uuid, ⟨editor.id, editor.name, some data⟩) := by
    intro e he
    simp only [Editor.onDocumentChange, Debounced.call, hbefore, if_true] at he
    rcases InsertionMap.mem_entries_set he with rfl | ⟨hmem, hne⟩
    · rfl
    · exact absurd (hkey e hmem) hne
  refine ⟨⟨hbefore, ?_⟩, ?_⟩
  · intro e he
    rw [hentries e he]
    rfl
  · rintro call (⟨due, hdue⟩ | ⟨uuid, hmem⟩)
    · cases hdue
      rfl
    · rw [(Prod.mk.inj (hentries _ hmem)).2]

theorem oneKey_step (hstep : step s e = some s') (h : s.editor.OneKey) : s'.editor.OneKey := by
  rcases step_cases hstep with ⟨data, -, rfl⟩ | ⟨i, transaction, requests, -, -, rfl⟩ | hsends
  · exact (h.onDocumentChange s.now data).1
  · exact h
  · exact hsends.oneKey h

theorem editing_documentChange (hstep : step s (.documentChange data) = some s')
    (h : s.editor.OneKey) : Editing id data s'.requests.length s' where
  holds := by
    rw [← Option.some.inj hstep]
    exact (h.onDocumentChange s.now data).2
  sent := by
    rw [← List.length_map, List.drop_length]
    simp
  length := le_rfl

theorem Editing.step (hstep : step s e = some s') (he : ∀ data', e ≠ .documentChange data')
    (h : Editing id data n s) : Editing id data n s' := by
  rcases step_cases hstep with ⟨data', rfl, -⟩ | ⟨i, transaction, requests, -, hdeliver, rfl⟩ | hsends
  · exact absurd rfl (he data')
  · have hmap := map_msg_deliver hdeliver
    refine ⟨h.holds, ?_, ?_⟩
    · rw [hmap]
      exact h.sent
    · rw [← List.length_map, hmap, List.length_map]
      exact h.length
  · obtain ⟨calls, hrequests, hcalls⟩ := hsends.requests
    have hmap := map_msg_post s.requests (calls.map Call.request)
    rw [← hrequests] at hmap
    have hlength : n ≤ (s.requests.map Posted.msg).length := by
      rw [List.length_map]
      exact h.length
    refine ⟨fun call hcall => h.holds call (hsends.holds call hcall), ?_, ?_⟩
    · intro m hm d hd
      rw [hmap, List.drop_append_of_le_length hlength] at hm
      rcases List.mem_append.1 hm with hm | hm
      · exact h.sent m hm d hd
      · -- a request that the step has sent
        obtain ⟨call, hcall, rfl⟩ := List.mem_map.1 hm
        have hdata := mem_saves_request hd
        rcases hcalls call hcall with hholds | hnone
        · rw [h.holds call hholds] at hdata
          exact (Option.some.inj hdata).symm
        · rw [hnone] at hdata
          cases hdata
    · rw [← List.length_map, hmap, List.length_append]
      omega

theorem editing_of_runs {s₁ : Session} (h : RunsBy (StepsInOrder id) s₁ log s)
    (hlast : ∀ data', Event.documentChange data' ∉ log)
    (hedit : Editing id data n s₁) : Editing id data n s := by
  refine h.inv (fun log s => (∀ data', Event.documentChange data' ∉ log) → Editing id data n s)
    (fun _ => hedit) ?_ hlast
  intro log s e s' ih _ hstep hlast
  have hold : ∀ data', Event.documentChange data' ∉ log := fun data' hmem =>
    hlast data' (List.mem_append_left _ hmem)
  refine (ih hold).step hstep.1 ?_
  rintro data' rfl
  exact hlast data' (List.mem_append_right _ (List.mem_singleton_self _))

theorem inStep_of_runs {s₁ : Session} (h : RunsBy (StepsInOrder id) s₁ log s)
    (hstart : InStep id initial s₁) : InStep id initial s :=
  h.inv (fun _ s => InStep id initial s) hstart fun _ _ _ _ ih _ hstep => ih.step hstep

theorem oneKey_of_runs {s₁ : Session} (h : RunsBy (StepsInOrder id) s₁ log s)
    (hstart : s₁.editor.OneKey) : s.editor.OneKey :=
  h.inv (fun _ s => s.editor.OneKey) hstart fun _ _ _ _ ih _ hstep => oneKey_step hstep.1 ih

theorem openEditor_eq_some {storage : Storage} {uuid now : Nat}
    (h : openEditor storage id uuid now = some s) :
    s.editor.OneKey ∧ ∃ initial, InStep id initial s := by
  obtain ⟨row, hrow, heq⟩ := Option.bind_eq_some_iff.1 h
  cases heq
  refine ⟨⟨rfl, ?_⟩, row.data, ?_⟩
  · intro e he
    cases he
  · rw [InStep, Storage.stored, hrow]
    rfl

end

/-! ## The last edit -/

/-- A storage with one document, and the page that has opened it. -/
def exampleStorage : Storage := ⟨[⟨"d".toList, 0, "n".toList, "0".toList⟩], by decide⟩

def exampleSession : Session where
  now := 0
  editor :=
    { id := "d".toList
      name := "n".toList
      funcMap := ⟨false, .empty⟩
      updateDocumentDebounce := superDebounce 7 1000 true }
  requests := []
  storage := exampleStorage

/-- A change that is saved when its timer goes off. -/
def exampleSave : List Event := [.documentChange "1".toList, .tick 1000, .timeout]

/-- The document ends with the data of the last change, if the server receives no save
that a later save of other data has overtaken: once a save sent since the change is on
its way and everything sent has been executed. -/
theorem last_edit_wins {storage : Storage} {id data : Str} {uuid now : Nat} {s₀ s₁ s₂ : Session}
    {before after : List Event} (hopen : openEditor storage id uuid now = some s₀)
    (hbefore : RunsBy (StepsInOrder id) s₀ (before ++ [.documentChange data]) s₁)
    (hafter : RunsBy (StepsInOrder id) s₁ after s₂)
    (hlast : ∀ data', Event.documentChange data' ∉ after)
    (hsaved : ∃ m ∈ (s₂.requests.map Posted.msg).drop s₁.requests.length, (saves id m).isSome)
    (hall : ∀ p ∈ s₂.requests, p.delivered = true) : s₂.storage.stored id = some data := by
  obtain ⟨hkey, initial, hstart⟩ := openEditor_eq_some hopen
  have hstored := inStep_of_runs hafter (inStep_of_runs hbefore hstart)
  have hedit : Editing id data s₁.requests.length s₁ := by
    generalize hlog : before ++ [Event.documentChange data] = log at hbefore
    cases hbefore with
    | start => simp at hlog
    | step hprev _ hstep =>
      obtain ⟨-, heq⟩ := List.append_inj' hlog rfl
      obtain rfl := List.singleton_inj.1 heq
      exact editing_documentChange hstep.1 (oneKey_of_runs hprev hkey)
  have hsent := (editing_of_runs hafter hlast hedit).sent
  have hend : ((s₂.requests.map Posted.msg).filterMap (saves id)).getLast? = some data := by
    rw [← List.take_append_drop s₁.requests.length (s₂.requests.map Posted.msg),
      List.filterMap_append]
    apply getLast?_append_of_forall_eq
    · obtain ⟨m, hm, hsome⟩ := hsaved
      obtain ⟨d, hd⟩ := Option.isSome_iff_exists.1 hsome
      exact List.ne_nil_of_mem (List.mem_filterMap.2 ⟨m, hm, hd⟩)
    · intro d hd
      obtain ⟨m, hm, hd⟩ := List.mem_filterMap.1 hd
      exact hsent m hm d hd
  rw [hstored, lastDelivered_of_all hall, hend]
  rfl

/-- The page is hidden after the second change; then the timer saves it once more. -/
theorem last_edit_wins_hidden : ∃ s₁ s₂,
    openEditor exampleStorage "d".toList 7 0 = some exampleSession ∧
    RunsBy (StepsInOrder "d".toList) exampleSession (exampleSave ++ [.documentChange "2".toList]) s₁ ∧
    RunsBy (StepsInOrder "d".toList) s₁
      [.visibilitychange true, .receive 0, .tick 1000, .timeout, .receive 2, .receive 1] s₂ ∧
    s₂.storage.stored "d".toList = some "2".toList := by
  let f : Session → Event → Option Session := fun s e => if InOrder "d".toList s e then step s e else none
  have hf : ∀ s e s', f s e = some s' → StepsInOrder "d".toList s e s' := by
    intro s e s' h
    rw [Option.ite_none_right_eq_some] at h
    exact ⟨h.2, h.1⟩
  obtain ⟨s₁, s₂, hbefore, hafter, hsaved, hall⟩ : ∃ s₁ s₂,
      (exampleSave ++ [Event.documentChange "2".toList]).foldlM f exampleSession = some s₁ ∧
      [Event.visibilitychange true, .receive 0, .tick 1000, .timeout, .receive 2, .receive 1].foldlM
        f s₁ = some s₂ ∧
      (∃ m ∈ (s₂.requests.map Posted.msg).drop s₁.requests.length, (saves "d".toList m).isSome) ∧
      ∀ p ∈ s₂.requests, p.delivered = true := by
    refine ⟨_, _, rfl, rfl, ?_, ?_⟩
    · decide
    · decide
  have hopen : openEditor exampleStorage "d".toList 7 0 = some exampleSession := rfl
  have hbefore := runs_of_foldlM hf hbefore
  have hafter := runs_of_foldlM hf hafter
  exact ⟨s₁, s₂, hopen, hbefore, hafter, last_edit_wins hopen hbefore hafter (by simp) hsaved hall⟩

/-- The first save reaches the server after the second one. -/
theorem last_edit_overwritten : ∃ s₁ s₂,
    openEditor exampleStorage "d".toList 7 0 = some exampleSession ∧
    RunsBy Steps exampleSession (exampleSave ++ [.documentChange "2".toList]) s₁ ∧
    RunsBy Steps s₁ [.tick 1000, .timeout, .receive 1, .receive 0] s₂ ∧
    (∃ m ∈ (s₂.requests.map Posted.msg).drop s₁.requests.length, (saves "d".toList m).isSome) ∧
    (∀ p ∈ s₂.requests, p.delivered = true) ∧
    s₂.storage.stored "d".toList = some "1".toList ∧ "1".toList ≠ "2".toList := by
  have hf : ∀ s e s', step s e = some s' → Steps s e s' := fun _ _ _ h => h
  exact ⟨_, _, rfl, runs_of_foldlM hf rfl, runs_of_foldlM hf rfl, by decide, by decide, by decide,
    by decide⟩

end Dockerset.Excalidraw
