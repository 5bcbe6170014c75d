import Dockerset.Data.LastWith
import Dockerset.Frpc.Generator

/-!
# What the frpc files say

`RuleSections c items secs` says what sections the rules of a configuration call
for: one for each name, with the lines of the last rule of that name.
`FileIs c items secs` is the file then. The listener writes that file for every
configuration if every rule has its configuration, and the order of the items
decides only the order of the sections (`files_complete`).

A rule without a configuration ends the program before the items that come after
it, whichever configuration those belong to (`file_independent_iff`).
-/

namespace Dockerset.Frpc
open Go Data

/-- A `Config` of this name that is not empty. -/
def ConfigFor (c : Str) (item : Item) : Prop :=
  item.kind = .Config ∧ item.target = c ∧ item.config ≠ []

instance (c : Str) : DecidablePred (ConfigFor c) := fun item =>
  inferInstanceAs (Decidable (item.kind = .Config ∧ item.target = c ∧ item.config ≠ []))

/-- A `Rule` with a service, for this configuration. -/
def RuleFor (c : Str) (item : Item) : Prop :=
  item.kind = .Rule ∧ item.service.isSome = true ∧ item.target = c

instance (c : Str) : DecidablePred (RuleFor c) := fun item =>
  inferInstanceAs (Decidable (item.kind = .Rule ∧ item.service.isSome = true ∧ item.target = c))

/-- The sections that the rules of a configuration call for, in some order. -/
structure RuleSections (c : Str) (items : List Item) (secs : List (Str × List Str)) : Prop where
  distinct : (secs.map Prod.fst).Nodup
  mem_iff : ∀ key lines, (key, lines) ∈ secs ↔ ∃ item service,
    LastWith (fun item => RuleFor c item ∧ item.ruleSection = key) items item ∧
      item.service = some service ∧ service.configSection = lines

def fileText (config : List Str) (secs : List (Str × List Str)) : Str :=
  sectionText common config ++ secs.flatMap fun s => sectionText s.1 s.2

/-- The file of a configuration, given the sections of its rules. -/
def FileIs (c : Str) (items : List Item) (secs : List (Str × List Str)) (file : Option Str) : Prop :=
  ((∀ item ∈ items, ¬ ConfigFor c item) → file = some []) ∧
  ∀ last, LastWith (ConfigFor c) items last → file = some (fileText last.config secs)

/-- Every rule has its configuration. -/
def RulesTargetConfigs (items : List Item) : Prop :=
  ∀ item ∈ items, item.kind = .Rule → item.target ∈ configNames items

instance (items : List Item) : Decidable (RulesTargetConfigs items) :=
  inferInstanceAs (Decidable (∀ item ∈ items, item.kind = .Rule → item.target ∈ configNames items))

variable {c key : Str} {items items' : List Item} {item : Item} {lines : List Str}

/-! ## What an item assigns -/

theorem ruleSection_ne_common (item : Item) : item.ruleSection ≠ common := by
  intro h
  have hmem : '@' ∈ common := by
    rw [← h, Item.ruleSection]
    simp
  exact absurd hmem (by decide)

theorem assigns_common_iff :
    item.assigns = some (common, lines) ↔
      item.kind = .Config ∧ item.config = lines ∧ lines ≠ [] := by
  rw [Item.assigns, Item.frpcSection]
  cases item.kind with
  | Config =>
    by_cases hempty : item.config = []
    · simp only [hempty, if_true]
      grind
    · simp only [hempty, if_false]
      grind
  | Rule =>
    cases item.service with
    | none => simp
    | some service => simp [ruleSection_ne_common]

theorem assigns_rule_iff (hkey : key ≠ common) :
    item.assigns = some (key, lines) ↔
      item.kind = .Rule ∧ item.ruleSection = key ∧
        ∃ service, item.service = some service ∧ service.configSection = lines := by
  rw [Item.assigns, Item.frpcSection]
  cases item.kind with
  | Config => simp [hkey.symm]
  | Rule =>
    cases item.service with
    | none => simp
    | some service => simp

/-- The item assigns this section of this configuration. -/
def AssignsTo (c key : Str) (item : Item) : Prop :=
  item.target = c ∧ ∃ lines, item.assigns = some (key, lines)

/-- A section has the lines of the last item that assigns it. -/
theorem get?_filled_iff :
    (filled (itemsOf c items)).get? key = some lines ↔
      ∃ item, LastWith (AssignsTo c key) items item ∧ item.assigns = some (key, lines) := by
  induction items using List.reverseRecOn with
  | nil => simp [itemsOf, filled, InsertionMap.ofList, not_lastWith_nil]
  | append_singleton items item ih =>
    rw [itemsOf_concat]
    by_cases hto : AssignsTo c key item
    · obtain ⟨htarget, lines', hassigns⟩ := hto
      have hlast : ∀ x, LastWith (AssignsTo c key) (items ++ [item]) x ↔ x = item :=
        fun x => lastWith_concat_of ⟨htarget, lines', hassigns⟩
      rw [if_pos htarget, filled_concat, hassigns]
      simp [hlast, hassigns]
    · simp only [lastWith_concat_of_not hto]
      rw [← ih]
      by_cases htarget : item.target = c
      · rw [if_pos htarget, filled_concat]
        cases hassigns : item.assigns with
        | none => rfl
        | some e =>
          have hne : ¬ key = e.1 := by
            rintro rfl
            exact hto ⟨htarget, e.2, hassigns⟩
          rw [InsertionMap.get?_set, if_neg hne]
      · rw [if_neg htarget]

theorem assignsTo_common_iff : AssignsTo c common item ↔ ConfigFor c item := by
  simp only [AssignsTo, ConfigFor, assigns_common_iff]
  grind

theorem assignsTo_rule_iff (hkey : key ≠ common) :
    AssignsTo c key item ↔ RuleFor c item ∧ item.ruleSection = key := by
  simp only [AssignsTo, RuleFor, assigns_rule_iff hkey, Option.isSome_iff_exists]
  grind

/-! ## The text of a map -/

/-- The sections of a map, without the common one. -/
def ruleEntries (m : FrpcConfig) : List (Str × List Str) := m.entries.filter fun e => e.1 ≠ common

theorem configContent_of_none {m : FrpcConfig} (h : m.get? common = none) : configContent m = [] := by
  simp [configContent, InsertionMap.has, h]

theorem configContent_of_some {m : FrpcConfig} {config : List Str} (h : m.get? common = some config) :
    configContent m = fileText config (ruleEntries m) := by
  have hsections : (m.keys.filter fun key => key ≠ common).flatMap (makeSection m) =
      (ruleEntries m).flatMap fun s => sectionText s.1 s.2 := by
    rw [InsertionMap.keys, List.filter_map, List.flatMap_map]
    apply List.flatMap_congr
    intro e he
    have hget := InsertionMap.get?_of_mem_entries (List.mem_of_mem_filter he)
    simp [makeSection, hget]
  rw [configContent, hsections]
  simp [InsertionMap.has, h, makeSection, fileText]

theorem mem_ruleEntries_iff {m : FrpcConfig} :
    (key, lines) ∈ ruleEntries m ↔ key ≠ common ∧ m.get? key = some lines := by
  rw [ruleEntries, List.mem_filter, decide_eq_true_eq, and_comm]
  apply and_congr_right
  intro _
  exact ⟨InsertionMap.get?_of_mem_entries, InsertionMap.mem_entries_of_get?⟩

theorem ruleSections_filled (c : Str) (items : List Item) :
    RuleSections c items (ruleEntries (filled (itemsOf c items))) where
  distinct := List.Nodup.sublist (List.filter_sublist.map Prod.fst) (filled (itemsOf c items)).nodup
  mem_iff key lines := by
    rw [mem_ruleEntries_iff]
    constructor
    · rintro ⟨hkey, hget⟩
      obtain ⟨item, hlast, hassigns⟩ := get?_filled_iff.1 hget
      obtain ⟨-, -, service, hservice, hlines⟩ := (assigns_rule_iff hkey).1 hassigns
      exact ⟨item, service, (lastWith_congr fun _ => assignsTo_rule_iff hkey).1 hlast, hservice, hlines⟩
    · rintro ⟨item, service, hlast, hservice, hlines⟩
      obtain ⟨-, -, -, ⟨⟨hrule, -, -⟩, hsection⟩, -⟩ := id hlast
      have hkey : key ≠ common := hsection ▸ ruleSection_ne_common item
      refine ⟨hkey, get?_filled_iff.2 ⟨item, ?_, ?_⟩⟩
      · exact (lastWith_congr fun _ => assignsTo_rule_iff hkey).2 hlast
      · exact (assigns_rule_iff hkey).2 ⟨hrule, hsection, service, hservice, hlines⟩

theorem fileIs_configContent {m : FrpcConfig}
    (h : m.get? common = (filled (itemsOf c items)).get? common) :
    FileIs c items (ruleEntries m) (some (configContent m)) := by
  constructor
  · intro hnone
    have hget : m.get? common = none := by
      rw [h, Option.eq_none_iff_forall_ne_some]
      intro lines hsome
      obtain ⟨item, ⟨earlier, later, heq, hto, -⟩, -⟩ := get?_filled_iff.1 hsome
      exact hnone item (by simp [heq]) (assignsTo_common_iff.1 hto)
    rw [configContent_of_none hget]
  · intro last hlast
    obtain ⟨-, -, -, ⟨hkind, -, hconfig⟩, -⟩ := id hlast
    have hget : m.get? common = some last.config := by
      rw [h]
      apply get?_filled_iff.2
      exact ⟨last, (lastWith_congr fun _ => assignsTo_common_iff).2 hlast,
        assigns_common_iff.2 ⟨hkind, rfl, hconfig⟩⟩
    rw [configContent_of_some hget]

/-! ## The order of the items -/

/-- No two rules of the configuration have one name. -/
def DistinctRules (c : Str) (items : List Item) : Prop :=
  ((items.filter fun item => RuleFor c item).map Item.ruleSection).Nodup

instance (c : Str) (items : List Item) : Decidable (DistinctRules c items) :=
  inferInstanceAs (Decidable (List.Nodup _))

theorem nodup_assigned (hconfigs : (configNames items).Nodup) (hrules : DistinctRules c items) :
    (((itemsOf c items).filterMap Item.assigns).map Prod.fst).Nodup := by
  rw [configNames, List.Nodup, List.pairwise_map, List.pairwise_filter] at hconfigs
  rw [DistinctRules, List.Nodup, List.pairwise_map, List.pairwise_filter] at hrules
  rw [List.Nodup, List.pairwise_map, List.pairwise_filterMap, itemsOf, List.pairwise_filter]
  apply (hconfigs.and hrules).imp
  rintro x y ⟨hconfig, hrule⟩ hx hy ⟨key, lines⟩ hxkey ⟨key', lines'⟩ hykey heq
  simp only [decide_eq_true_eq] at hconfig hrule hx hy
  change key = key' at heq
  subst heq
  have hxto : AssignsTo c key x := ⟨hx, lines, hxkey⟩
  have hyto : AssignsTo c key y := ⟨hy, lines', hykey⟩
  by_cases hkey : key = common
  · subst hkey
    have hxconfig := (assignsTo_common_iff.1 hxto).1
    have hyconfig := (assignsTo_common_iff.1 hyto).1
    exact hconfig hxconfig hyconfig (hx.trans hy.symm)
  · obtain ⟨hxrule, hxsection⟩ := (assignsTo_rule_iff hkey).1 hxto
    obtain ⟨hyrule, hysection⟩ := (assignsTo_rule_iff hkey).1 hyto
    exact hrule hxrule hyrule (hxsection.trans hysection.symm)

theorem entries_filled_perm (hperm : items'.Perm items) (hconfigs : (configNames items).Nodup)
    (hrules : DistinctRules c items) :
    (filled (itemsOf c items')).entries.Perm (filled (itemsOf c items)).entries := by
  have hassigned : ((itemsOf c items').filterMap Item.assigns).Perm
      ((itemsOf c items).filterMap Item.assigns) := (hperm.filter _).filterMap _
  have hnodup := nodup_assigned hconfigs hrules
  have hnodup' := ((hassigned.map Prod.fst).nodup_iff).2 hnodup
  rw [filled, filled, InsertionMap.entries_ofList hnodup, InsertionMap.entries_ofList hnodup']
  exact hassigned

theorem get?_eq_of_perm {m m' : FrpcConfig} (h : m'.entries.Perm m.entries) (key : Str) :
    m'.get? key = m.get? key := by
  apply Option.ext
  intro lines
  constructor
  · intro hget
    exact InsertionMap.get?_of_mem_entries (h.mem_iff.1 (InsertionMap.mem_entries_of_get? hget))
  · intro hget
    exact InsertionMap.get?_of_mem_entries (h.mem_iff.2 (InsertionMap.mem_entries_of_get? hget))

/-! ## The files -/

theorem RulesTargetConfigs.target_mem (h : RulesTargetConfigs items) :
    ∀ item ∈ items, item.target ∈ configNames items := by
  intro item hitem
  cases hkind : item.kind with
  | Config =>
    exact List.mem_map_of_mem (List.mem_filter.2 ⟨hitem, decide_eq_true hkind⟩)
  | Rule => exact h item hitem hkind

theorem RulesTargetConfigs.perm (h : RulesTargetConfigs items) (hperm : items'.Perm items) :
    RulesTargetConfigs items' := by
  intro item hitem hkind
  have hnames : (configNames items').Perm (configNames items) := (hperm.filter _).map _
  exact hnames.mem_iff.2 (h item (hperm.mem_iff.1 hitem) hkind)

/-- With every configuration there, the listener finishes, and every file is from all of its items. -/
theorem listener_finished (h : RulesTargetConfigs items) (files : Str → Option Str) :
    ∃ files', listener files items = .finished files' ∧
      ∀ c ∈ configNames items, files' c = some (configContent (filled (itemsOf c items))) := by
  obtain ⟨files', hfinished⟩ := (filled_start files items).loop_finished h.target_mem
  refine ⟨files', hfinished, ?_⟩
  intro c hc
  have hfile := files_listener files items c
  have hall : reached (configNames items) items = items := by
    rw [reached, List.takeWhile_eq_self_iff]
    intro item hitem
    simpa using h.target_mem item hitem
  obtain ⟨item, hitem, htarget⟩ := List.mem_map.1 hc
  have hne : itemsOf c items ≠ [] := by
    apply List.ne_nil_of_mem
    exact List.mem_filter.2 ⟨List.mem_of_mem_filter hitem, decide_eq_true htarget⟩
  rw [hall, fileFrom, if_neg hne] at hfile
  rw [← hfile, listener, hfinished]
  rfl

/-- The files of the configurations, whatever order the items come in. -/
theorem files_complete (files : Str → Option Str) (items : List Item)
    (hitems : RulesTargetConfigs items) :
    ∃ files', listener files items = .finished files' ∧
      ∀ c ∈ configNames items, ∃ secs, RuleSections c items secs ∧ FileIs c items secs (files' c) ∧
        ∀ reordered, reordered.Perm items → (configNames items).Nodup → DistinctRules c items →
          ∃ files'' secs', listener files reordered = .finished files'' ∧ secs'.Perm secs ∧
            FileIs c items secs' (files'' c) := by
  obtain ⟨files', hfinished, hfiles⟩ := listener_finished hitems files
  refine ⟨files', hfinished, ?_⟩
  intro c hc
  refine ⟨_, ruleSections_filled c items, ?_, ?_⟩
  · rw [hfiles c hc]
    exact fileIs_configContent rfl
  · intro reordered hperm hconfigs hrules
    have hentries := entries_filled_perm hperm hconfigs hrules
    have hnames : (configNames reordered).Perm (configNames items) := (hperm.filter _).map _
    obtain ⟨files'', hfinished', hfiles'⟩ := listener_finished (hitems.perm hperm) files
    refine ⟨files'', _, hfinished', hentries.filter _, ?_⟩
    rw [hfiles' c (hnames.mem_iff.2 hc)]
    exact fileIs_configContent (get?_eq_of_perm hentries common)

/-- A configuration without a name, with one line. -/
def sampleConfig : Item where
  name := []
  «namespace» := []
  kind := .Config
  service := none
  config := [("server_port = 7000" : Str)]

/-- A rule for a target, with a port. -/
def sampleRule (name targetConfig : Str) (port : Int) : Item where
  name := name
  «namespace» := []
  kind := .Rule
  service := some {
    targetConfig := targetConfig
    «namespace» := []
    name := "web"
    port := port
    remotePort := 0
    customDomains := []
    subdomain := []
    protocol := none
    extraConfig := [] }
  config := []

theorem files_complete_two_rules :
    RulesTargetConfigs [sampleRule "a" [] 80, sampleConfig, sampleRule "b" "default" 81] ∧
    ∃ written, listener (fun _ => none)
        [sampleRule "a" [] 80, sampleConfig, sampleRule "b" "default" 81] = .finished written ∧
      (written "default").isSome = true := by
  have hitems : RulesTargetConfigs
      [sampleRule "a" [] 80, sampleConfig, sampleRule "b" "default" 81] := by
    decide +kernel
  refine ⟨hitems, ?_⟩
  obtain ⟨written, hfinished, hfiles⟩ := files_complete (fun _ => none) _ hitems
  obtain ⟨secs, -, ⟨-, hlast⟩, -⟩ := hfiles "default" (by decide +kernel)
  refine ⟨written, hfinished, ?_⟩
  rw [hlast sampleConfig ⟨[sampleRule "a" [] 80], [sampleRule "b" "default" 81], rfl,
    by decide +kernel, by decide +kernel⟩]
  rfl

/-- Two rules of one name: the later one stays, so their order is more than that of the sections. -/
theorem reordered_rules_differ :
    RulesTargetConfigs [sampleConfig, sampleRule "a" [] 80, sampleRule "a" [] 8080] ∧
    (configNames [sampleConfig, sampleRule "a" [] 80, sampleRule "a" [] 8080]).Nodup ∧
    [sampleConfig, sampleRule "a" [] 8080, sampleRule "a" [] 80].Perm
      [sampleConfig, sampleRule "a" [] 80, sampleRule "a" [] 8080] ∧
    ¬ ∃ secs secs',
      FileIs "default" [sampleConfig, sampleRule "a" [] 80, sampleRule "a" [] 8080] secs
        ((listener (fun _ => none)
          [sampleConfig, sampleRule "a" [] 80, sampleRule "a" [] 8080]).files "default") ∧
      secs'.Perm secs ∧
      FileIs "default" [sampleConfig, sampleRule "a" [] 80, sampleRule "a" [] 8080] secs'
        ((listener (fun _ => none)
          [sampleConfig, sampleRule "a" [] 8080, sampleRule "a" [] 80]).files "default") := by
  refine ⟨by decide +kernel, by decide +kernel, (List.Perm.swap ..).cons _, ?_⟩
  rintro ⟨secs, secs', ⟨-, hfile⟩, hperm, ⟨-, hfile'⟩⟩
  have hlast : LastWith (ConfigFor "default")
      [sampleConfig, sampleRule "a" [] 80, sampleRule "a" [] 8080] sampleConfig :=
    ⟨[], [sampleRule "a" [] 80, sampleRule "a" [] 8080], rfl, by decide +kernel, by decide +kernel⟩
  -- A reordering keeps the length of the file, and the ports have different lengths.
  have hlength : (fileText sampleConfig.config secs').length =
      (fileText sampleConfig.config secs).length := by
    rw [fileText, fileText, List.length_append, List.length_append]
    congr 1
    exact (hperm.flatMap_right _).length_eq
  have hold := congrArg (Option.map List.length) (hfile _ hlast)
  have hnew := congrArg (Option.map List.length) (hfile' _ hlast)
  rw [Option.map_some, hlength, ← Option.map_some, ← hold] at hnew
  revert hnew
  decide +kernel

/-! ## Rules without a configuration -/

/-- The items of a configuration that come before the first rule without one. -/
def itemsBefore (c : Str) (items : List Item) : List Item :=
  itemsOf c (reached (configNames items) items)

theorem itemsBefore_isPrefix (c : Str) (items : List Item) : itemsBefore c items <+: itemsOf c items :=
  (List.takeWhile_prefix _).filter _

theorem configContent_eq_nil_iff (hitems : itemsOf c items = items) :
    configContent (filled items) = [] ↔ ∀ item ∈ items, ¬ ConfigFor c item := by
  have hfile : FileIs c items (ruleEntries (filled items)) (some (configContent (filled items))) :=
    fileIs_configContent (by rw [hitems])
  refine ⟨fun hnil item hitem hfor => ?_, fun hnone => Option.some.inj (hfile.1 hnone)⟩
  obtain ⟨last, hlast⟩ := exists_lastWith ⟨item, hitem, hfor⟩
  have htext := hfile.2 last hlast
  rw [hnil] at htext
  simp [fileText, sectionText] at htext

/-- More sections make a file longer that has its `Config`. -/
theorem configContent_append_ne {more : List Item}
    (hnodup : (((items ++ more).filterMap Item.assigns).map Prod.fst).Nodup)
    (hmore : more.filterMap Item.assigns ≠ []) (hconfig : ∃ item ∈ items, ConfigFor c item) :
    configContent (filled items) ≠ configContent (filled (items ++ more)) := by
  obtain ⟨item, hitem, hfor⟩ := hconfig
  obtain ⟨-, config, hassigns⟩ := assignsTo_common_iff.2 hfor
  have hmem : (common, config) ∈ items.filterMap Item.assigns :=
    List.mem_filterMap.2 ⟨item, hitem, hassigns⟩
  have hlong : (filled (items ++ more)).entries = _ := InsertionMap.entries_ofList hnodup
  rw [List.filterMap_append] at hlong
  rw [List.filterMap_append, List.map_append, List.nodup_append] at hnodup
  have hshort : (filled items).entries = _ := InsertionMap.entries_ofList hnodup.1
  have hrules : ruleEntries (filled (items ++ more)) =
      ruleEntries (filled items) ++ more.filterMap Item.assigns := by
    rw [ruleEntries, ruleEntries, hlong, hshort, List.filter_append, List.append_cancel_left_eq,
      List.filter_eq_self]
    intro s hs
    have hne := hnodup.2.2 common (List.mem_map_of_mem hmem) s.1 (List.mem_map_of_mem hs)
    simpa using hne.symm
  obtain ⟨s, secs, hsecs⟩ := List.exists_cons_of_ne_nil hmore
  rw [configContent_of_some (InsertionMap.get?_of_mem_entries (hshort ▸ hmem)),
    configContent_of_some (InsertionMap.get?_of_mem_entries (hlong ▸ List.mem_append_left _ hmem)),
    hrules, hsecs]
  simp [fileText, sectionText]

/-- The items assign the same sections, or no `Config` among them has lines. -/
def SameFile (c : Str) (xs ys : List Item) : Prop :=
  xs.filterMap Item.assigns = ys.filterMap Item.assigns ∨ ∀ item ∈ xs ++ ys, ¬ ConfigFor c item

theorem SameFile.configContent_eq {xs ys : List Item} (h : SameFile c xs ys) (hxs : itemsOf c xs = xs)
    (hys : itemsOf c ys = ys) : configContent (filled xs) = configContent (filled ys) := by
  rcases h with hsame | hnone
  · rw [filled, filled, hsame]
  · rw [List.forall_mem_append, ← configContent_eq_nil_iff hxs, ← configContent_eq_nil_iff hys] at hnone
    rw [hnone.1, hnone.2]

/-- If no section is assigned twice, more items leave the file as it is only if they assign none, or if
it stays empty. -/
theorem sameFile_of_eq {xs ys : List Item} (hpre : xs <+: ys) (hxs : itemsOf c xs = xs)
    (hys : itemsOf c ys = ys) (hnodup : ((ys.filterMap Item.assigns).map Prod.fst).Nodup)
    (heq : configContent (filled xs) = configContent (filled ys)) : SameFile c xs ys := by
  obtain ⟨more, rfl⟩ := hpre
  by_cases hmore : more.filterMap Item.assigns = []
  · exact .inl (by simp [hmore])
  · have hnone : ∀ item ∈ xs, ¬ ConfigFor c item := by
      intro item hitem hfor
      exact configContent_append_ne hnodup hmore ⟨item, hitem, hfor⟩ heq
    refine .inr (List.forall_mem_append.2 ⟨hnone, ?_⟩)
    rwa [← configContent_eq_nil_iff hys, ← heq, configContent_eq_nil_iff hxs]

theorem fileFrom_eq_iff {xs ys : List Item} :
    fileFrom none xs = fileFrom none ys ↔
      (xs = [] ↔ ys = []) ∧ configContent (filled xs) = configContent (filled ys) := by
  unfold fileFrom
  by_cases hx : xs = []
  · by_cases hy : ys = []
    · simp [hx, hy]
    · simp [hx, hy]
  · by_cases hy : ys = []
    · simp [hx, hy]
    · simp [hx, hy]

/-- Of the items of the configuration that come before the first rule without one there are some in both
lists or in none, and they make the same file. -/
def Spared (c : Str) (xs ys : List Item) : Prop :=
  (itemsBefore c xs = [] ↔ itemsBefore c ys = []) ∧ SameFile c (itemsBefore c xs) (itemsBefore c ys)

/-- **Which lists with the same items of a configuration leave the same file of it**, in a directory that
was empty: those that spare it, and no others if no section of it is assigned twice. -/
theorem file_independent_iff (c : Str) (xs ys : List Item) (hagree : itemsOf c xs = itemsOf c ys) :
    (Spared c xs ys → (listener (fun _ => none) xs).files c = (listener (fun _ => none) ys).files c) ∧
    ((configNames xs).Nodup → DistinctRules c xs →
      ((listener (fun _ => none) xs).files c = (listener (fun _ => none) ys).files c ↔
        Spared c xs ys)) := by
  have hof : ∀ zs, itemsOf c (itemsBefore c zs) = itemsBefore c zs := by
    intro zs
    exact List.filter_filter.trans (by simp [itemsBefore, itemsOf])
  rw [files_listener, files_listener, fileFrom_eq_iff]
  have hspared : Spared c xs ys → (itemsBefore c xs = [] ↔ itemsBefore c ys = []) ∧
      configContent (filled (itemsBefore c xs)) = configContent (filled (itemsBefore c ys)) :=
    fun h => ⟨h.1, h.2.configContent_eq (hof xs) (hof ys)⟩
  refine ⟨hspared, fun hconfigs hrules => ⟨?_, hspared⟩⟩
  rintro ⟨hempty, heq⟩
  have hx : itemsBefore c xs <+: itemsOf c xs := itemsBefore_isPrefix c xs
  have hy : itemsBefore c ys <+: itemsOf c xs := hagree ▸ itemsBefore_isPrefix c ys
  have hnodup : ∀ {zs}, zs <+: itemsOf c xs → ((zs.filterMap Item.assigns).map Prod.fst).Nodup :=
    fun hpre => (nodup_assigned hconfigs hrules).sublist ((hpre.sublist.filterMap _).map _)
  refine ⟨hempty, ?_⟩
  rcases List.prefix_or_prefix_of_prefix hx hy with hpre | hpre
  · exact sameFile_of_eq hpre (hof xs) (hof ys) (hnodup hy) heq
  · have hsame := sameFile_of_eq hpre (hof ys) (hof xs) (hnodup hx) heq.symm
    exact hsame.imp Eq.symm fun h item hitem => h item (List.mem_append.2 (List.mem_append.1 hitem).symm)

/-- With a stray rule after the last item of the configuration, its file is what it is without. -/
theorem late_stray_rule_harmless :
    itemsOf "default" [sampleConfig, sampleRule "a" [] 80] =
      itemsOf "default" [sampleConfig, sampleRule "a" [] 80, sampleRule "b" "nowhere" 81] ∧
    (listener (fun _ => none) [sampleConfig, sampleRule "a" [] 80]).files "default" =
      (listener (fun _ => none)
        [sampleConfig, sampleRule "a" [] 80, sampleRule "b" "nowhere" 81]).files "default" :=
  have hagree : itemsOf "default" [sampleConfig, sampleRule "a" [] 80] =
      itemsOf "default" [sampleConfig, sampleRule "a" [] 80, sampleRule "b" "nowhere" 81] := by
    decide +kernel
  ⟨hagree, (file_independent_iff _ _ _ hagree).1 ⟨by decide +kernel, .inl (by decide +kernel)⟩⟩

/-- The same items of the configuration `default`, with a rule of another one between them. -/
theorem stray_rule_breaks_file :
    ("default" : Str) ∈ configNames [sampleConfig, sampleRule "a" [] 80] ∧
    itemsOf "default" [sampleConfig, sampleRule "a" [] 80] =
      itemsOf "default" [sampleConfig, sampleRule "b" "nowhere" 81, sampleRule "a" [] 80] ∧
    (listener (fun _ => none) [sampleConfig, sampleRule "a" [] 80]).files "default" ≠
      (listener (fun _ => none)
        [sampleConfig, sampleRule "b" "nowhere" 81, sampleRule "a" [] 80]).files "default" := by
  decide +kernel

end Dockerset.Frpc
