import Dockerset.Data.InsertionMap
import Dockerset.Go.Strings
import Mathlib.Data.List.TakeWhile

/-!
# The frpc configuration files (`utils/config-generator.js`)

The listener goes over the items twice: the first loop makes an empty map for
every `Config`, the second fills the maps and writes a file after every item,
from what the item's map holds by then. An item whose target has no map ends the
program with a `TypeError`; what was written stays.

A file depends on the items of its configuration only, up to the first such
error (`files_listener`).

Items are as the schema admits them, with a `spec`: the schema does not ask for one,
and an item without it ends the program in the first loop, before anything is written.
A string, number or list that may be missing is empty or 0 where it is, which is how
the code tests for it. Strings in messages to the console are left out, and an integer
is one that a JavaScript number holds exactly.
-/

namespace Dockerset.Frpc
open Go Data

inductive Protocol where
  | TCP
  | UDP
  | HTTP
  | HTTPS
deriving DecidableEq

structure Service where
  targetConfig : Str
  «namespace» : Str
  name : Str
  port : Int
  remotePort : Int
  customDomains : Str
  subdomain : Str
  protocol : Option Protocol
  extraConfig : List Str
deriving DecidableEq

inductive Kind where
  | Config
  | Rule
deriving DecidableEq

structure Item where
  name : Str
  «namespace» : Str
  kind : Kind
  service : Option Service
  config : List Str
deriving DecidableEq

/-- `a || b` for strings. -/
def orElse (a b : Str) : Str := if a = [] then b else a

def extractConfigName (name : Str) : Str := orElse name "default"

/-- `frpcConfigName`, before `extractConfigName`. -/
def Item.configName (item : Item) : Str :=
  match item.kind with
  | .Config => item.name
  | .Rule =>
    match item.service with
    | some service => service.targetConfig
    | none => []

/-- The configuration that an item belongs to. -/
def Item.target (item : Item) : Str := extractConfigName item.configName

def Item.ruleSection (item : Item) : Str :=
  orElse item.name "undefined" ++ '@' :: orElse item.«namespace» "default"

def common : Str := "common"

/-- `frpcSection`. -/
def Item.frpcSection (item : Item) : Str :=
  match item.kind with
  | .Config => common
  | .Rule => item.ruleSection

def Protocol.toLowerCase : Protocol → Str
  | TCP => "tcp"
  | UDP => "udp"
  | HTTP => "http"
  | HTTPS => "https"

/-- The lines of a rule's section. -/
def Service.configSection (service : Service) : List Str :=
  let type := match service.protocol with
    | some protocol => protocol.toLowerCase
    | none => "tcp"
  let svcName := orElse service.name "default"
  let svcNamespace := orElse service.«namespace» "default"
  [("type = " : Str) ++ type,
    ("local_ip = " : Str) ++ svcName ++ '.' :: svcNamespace ++ (".svc.cluster.local" : Str),
    ("local_port = " : Str) ++ decimal service.port] ++
  (if service.remotePort ≠ 0 then [("remote_port = " : Str) ++ decimal service.remotePort] else []) ++
  (if service.customDomains ≠ [] then [("custom_domains = " : Str) ++ service.customDomains] else []) ++
  (if service.subdomain ≠ [] then [("subdomain = " : Str) ++ service.subdomain] else []) ++
  service.extraConfig

abbrev FrpcConfig := InsertionMap Str (List Str)

def sectionText (key : Str) (lines : List Str) : Str :=
  ('[' :: key ++ (']' :: '\n' :: ['\n'].intercalate lines)) ++ ['\n', '\n']

/-- `makeSection(frpcConfig, key)`. -/
def makeSection (frpcConfig : FrpcConfig) (key : Str) : Str :=
  sectionText key ((frpcConfig.get? key).getD [])

/-- What is written to the file of a configuration. -/
def configContent (frpcConfig : FrpcConfig) : Str :=
  if frpcConfig.has common then
    makeSection frpcConfig common ++
      (frpcConfig.keys.filter fun key => key ≠ common).flatMap (makeSection frpcConfig)
  else []

/-- The `switch` of the second loop: what the item assigns in the map of its configuration. -/
def Item.assigns (item : Item) : Option (Str × List Str) :=
  match item.kind with
  | .Config => if item.config = [] then none else some (item.frpcSection, item.config)
  | .Rule =>
    match item.service with
    | none => none
    | some service => some (item.frpcSection, service.configSection)

/-- `allConfigs`, and the files by their names without the extension. -/
structure Gen where
  allConfigs : InsertionMap Str FrpcConfig
  files : Str → Option Str

/-- The first loop. -/
def makeConfigs (items : List Item) : InsertionMap Str FrpcConfig :=
  .ofList ((items.filter fun item => item.kind = .Config).map fun item =>
    (extractConfigName item.name, .empty))

/-- One item of the second loop; `none` is the `TypeError` of a target that has no map. -/
def Gen.step (g : Gen) (item : Item) : Option Gen :=
  match g.allConfigs.get? item.target with
  | none => none
  | some frpcConfig =>
    let frpcConfig :=
      match item.assigns with
      | none => frpcConfig
      | some (key, lines) => frpcConfig.set key lines
    some {
      allConfigs := g.allConfigs.set item.target frpcConfig
      files := Function.update g.files item.target (some (configContent frpcConfig)) }

/-- How the program ends, with the files by then. -/
inductive Outcome where
  | finished (files : Str → Option Str)
  | typeError (files : Str → Option Str)

def Outcome.files : Outcome → Str → Option Str
  | finished files => files
  | typeError files => files

/-- The second loop. -/
def Gen.loop (g : Gen) : List Item → Outcome
  | [] => .finished g.files
  | item :: items =>
    match g.step item with
    | none => .typeError g.files
    | some g' => g'.loop items

def listener (files : Str → Option Str) (items : List Item) : Outcome :=
  Gen.loop ⟨makeConfigs items, files⟩ items

/-! ## One file -/

def configNames (items : List Item) : List Str :=
  (items.filter fun item => item.kind = .Config).map Item.target

def itemsOf (c : Str) (items : List Item) : List Item := items.filter fun item => item.target = c

/-- The items before the first one whose target is no configuration. -/
def reached (names : List Str) (items : List Item) : List Item :=
  items.takeWhile fun item => names.contains item.target

/-- The map that these items fill. -/
def filled (items : List Item) : FrpcConfig := .ofList (items.filterMap Item.assigns)

/-- The file of a configuration, from its items. -/
def fileFrom (before : Option Str) (items : List Item) : Option Str :=
  if items = [] then before else some (configContent (filled items))

variable {c : Str} {items processed : List Item} {item : Item} {names : List Str} {g : Gen}
  {files : Str → Option Str}

/-- The maps and the files, after some of the items. -/
structure Filled (names : List Str) (files : Str → Option Str) (processed : List Item) (g : Gen) :
    Prop where
  known : ∀ c ∈ names, g.allConfigs.get? c = some (filled (itemsOf c processed))
  unknown : ∀ c ∉ names, g.allConfigs.get? c = none
  files : ∀ c, g.files c = fileFrom (files c) (itemsOf c processed)

theorem filled_start (files : Str → Option Str) (items : List Item) :
    Filled (configNames items) files [] ⟨makeConfigs items, files⟩ := by
  have hkeys : ((items.filter fun item => item.kind = .Config).map (fun item =>
      (extractConfigName item.name, (InsertionMap.empty : FrpcConfig)))).map Prod.fst =
      configNames items := by
    rw [configNames, List.map_map]
    apply List.map_congr_left
    intro item hitem
    have hkind : item.kind = .Config := by simpa using (List.mem_filter.1 hitem).2
    simp [Item.target, Item.configName, hkind]
  refine ⟨?_, ?_, fun _ => rfl⟩
  · intro c hc
    apply InsertionMap.get?_ofList_eq_some (hkeys ▸ hc)
    intro e he
    obtain ⟨item, -, rfl⟩ := List.mem_map.1 he
    rfl
  · intro c hc
    exact InsertionMap.get?_ofList_eq_none (hkeys ▸ hc)

theorem itemsOf_append (c : Str) (xs ys : List Item) :
    itemsOf c (xs ++ ys) = itemsOf c xs ++ itemsOf c ys :=
  List.filter_append ..

theorem filled_concat (items : List Item) (item : Item) :
    filled (items ++ [item]) =
      match item.assigns with
      | none => filled items
      | some (key, lines) => (filled items).set key lines := by
  unfold filled
  rw [List.filterMap_append]
  cases h : item.assigns with
  | none => simp [h]
  | some e => simp [h, InsertionMap.ofList_concat]

theorem Filled.step_none (h : Filled names files processed g) (htarget : item.target ∉ names) :
    g.step item = none := by
  rw [Gen.step, h.unknown _ htarget]

theorem itemsOf_concat (c : Str) (xs : List Item) (item : Item) :
    itemsOf c (xs ++ [item]) = if item.target = c then itemsOf c xs ++ [item] else itemsOf c xs := by
  rw [itemsOf_append, itemsOf, itemsOf, List.filter_singleton]
  by_cases h : item.target = c
  · simp [h]
  · simp [h]

theorem Filled.step_some (h : Filled names files processed g) (htarget : item.target ∈ names) :
    ∃ g', g.step item = some g' ∧ Filled names files (processed ++ [item]) g' := by
  rw [Gen.step, h.known _ htarget]
  refine ⟨_, rfl, ?_, ?_, ?_⟩
  · intro c hmem
    rw [InsertionMap.get?_set, itemsOf_concat]
    by_cases hc : c = item.target
    · rw [if_pos hc, if_pos hc.symm, filled_concat, hc]
    · rw [if_neg hc, if_neg fun heq => hc heq.symm, h.known c hmem]
  · intro c hmem
    have hc : ¬ c = item.target := fun heq => hmem (heq ▸ htarget)
    rw [InsertionMap.get?_set, if_neg hc, h.unknown c hmem]
  · intro c
    rw [itemsOf_concat]
    by_cases hc : c = item.target
    · rw [if_pos hc.symm, fileFrom, if_neg (by simp), filled_concat, hc]
      exact Function.update_self ..
    · rw [if_neg fun heq => hc heq.symm, ← h.files]
      exact Function.update_of_ne hc ..

theorem Filled.loop (h : Filled names files processed g) (items : List Item) (c : Str) :
    (g.loop items).files c = fileFrom (files c) (itemsOf c (processed ++ reached names items)) := by
  induction items generalizing g processed with
  | nil =>
    rw [reached, List.takeWhile_nil, List.append_nil]
    exact h.files c
  | cons item items ih =>
    rw [Gen.loop, reached, List.takeWhile_cons]
    by_cases htarget : item.target ∈ names
    · obtain ⟨g', hstep, h'⟩ := h.step_some htarget
      rw [hstep, if_pos (by simpa using htarget), List.append_cons]
      exact ih h'
    · rw [h.step_none htarget, if_neg (by simpa using htarget), List.append_nil]
      exact h.files c

theorem Filled.loop_finished (h : Filled names files processed g)
    (htargets : ∀ item ∈ items, item.target ∈ names) : ∃ files', g.loop items = .finished files' := by
  induction items generalizing g processed with
  | nil => exact ⟨g.files, rfl⟩
  | cons item items ih =>
    obtain ⟨g', hstep, h'⟩ := h.step_some (htargets item (List.mem_cons_self ..))
    rw [Gen.loop, hstep]
    exact ih h' fun later hlater => htargets later (List.mem_cons_of_mem _ hlater)

theorem files_listener (files : Str → Option Str) (items : List Item) (c : Str) :
    (listener files items).files c =
      fileFrom (files c) (itemsOf c (reached (configNames items) items)) :=
  (filled_start files items).loop items c

end Dockerset.Frpc
