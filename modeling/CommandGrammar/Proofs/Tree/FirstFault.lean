import CommandGrammar.Definition.File
import CommandGrammar.Proofs.Definition.Compiled
import CommandGrammar.Proofs.Text.ByteOrder
import CommandGrammar.Proofs.Tree.FaultWalk
import CommandGrammar.Proofs.Tree.Merging

/-!
# The first fault

A tree is walked from the root down, siblings ascending by the bytes of their names, so that paths
are met in the order of a dictionary. Validation reports the fault of the first node on this walk
that has one, and building a definition the fault of its first faulty root.
-/

namespace CommandGrammar

theorem TreeFault.joinNames_eq_intercalate (names : List String) :
    TreeFault.joinNames names = " ".intercalate names := by
  apply String.toList_inj.mp
  rw [TreeFault.joinNames, String.toList_ofList, String.toList_intercalate]
  rfl

namespace Node

variable {Source Value : Type}

/-! ### The fault of one node -/

def NameBlank (n : Node Source Value) : Prop := ∀ c ∈ n.name.toList, Text.isBlank c = true

/-- A word of the input can spell the keyword; an argument has nothing to be spelled. -/
def Spellable (n : Node Source Value) : Prop :=
  n.isLiteral = true → ∀ c ∈ n.name.toList, Reader.isWordChar c = true

/-- A branch does not end here without running anything. -/
def LeadsOn (n : Node Source Value) : Prop := n.children = [] → n.isExecutable = true

structure Works (n : Node Source Value) : Prop where
  named : ¬ n.NameBlank
  spellable : n.Spellable
  leadsOn : n.LeadsOn

/-- The fault of a node that `names` lead to, its own name last. A check counts if those before it
are passed. -/
inductive HasFault (names : List String) (n : Node Source Value) : TreeFault → Prop where
  | emptyName (hblank : n.NameBlank) : HasFault names n (.emptyName names.dropLast)
  | unreadableLiteral (hnamed : ¬ n.NameBlank) (hspell : ¬ n.Spellable) :
      HasFault names n (.unreadableLiteral names)
  | deadEnd (hnamed : ¬ n.NameBlank) (hspell : n.Spellable) (hend : ¬ n.LeadsOn) :
      HasFault names n (.deadEnd names)

theorem HasFault.not_works {names : List String} {n : Node Source Value} {fault : TreeFault}
    (h : n.HasFault names fault) : ¬ n.Works := by
  intro hworks
  cases h with
  | emptyName hblank => exact hworks.named hblank
  | unreadableLiteral _ hspell => exact hspell hworks.spellable
  | deadEnd _ _ hend => exact hend hworks.leadsOn

theorem exists_hasFault_of_not_works {n : Node Source Value} (names : List String)
    (h : ¬ n.Works) : ∃ fault, n.HasFault names fault := by
  by_cases hblank : n.NameBlank
  · exact ⟨_, .emptyName hblank⟩
  · by_cases hspell : n.Spellable
    · exact ⟨_, .deadEnd hblank hspell fun hleads => h ⟨hblank, hspell, hleads⟩⟩
    · exact ⟨_, .unreadableLiteral hblank hspell⟩

theorem nameBlank_iff {n : Node Source Value} : Text.trim n.name.toList = [] ↔ n.NameBlank :=
  Text.trim_eq_nil_iff

theorem not_spellable_iff {n : Node Source Value} :
    (n.isLiteral && !n.name.toList.all Reader.isWordChar) = true ↔ ¬ n.Spellable := by
  rw [Spellable, Bool.and_eq_true, Bool.not_eq_true', ← Bool.not_eq_true, List.all_eq_true]
  exact Classical.not_imp.symm

theorem not_leadsOn_iff {n : Node Source Value} :
    (n.children.isEmpty && !n.isExecutable) = true ↔ ¬ n.LeadsOn := by
  rw [LeadsOn, Bool.and_eq_true, Bool.not_eq_true', ← Bool.not_eq_true, List.isEmpty_iff]
  exact Classical.not_imp.symm

theorem ownFault?_eq_some_iff {above : List String} {n : Node Source Value} {fault : TreeFault} :
    ownFault? above n = some fault ↔ n.HasFault (above ++ [n.name]) fault := by
  have habove : (above ++ [n.name]).dropLast = above := List.dropLast_concat
  rw [ownFault?]
  constructor
  · intro h
    split_ifs at h with hblank hspell hend
    · obtain rfl := Option.some.inj h
      have hfault : n.HasFault (above ++ [n.name]) (.emptyName (above ++ [n.name]).dropLast) :=
        .emptyName (nameBlank_iff.mp hblank)
      rwa [habove] at hfault
    · obtain rfl := Option.some.inj h
      exact .unreadableLiteral (hblank ∘ nameBlank_iff.mpr) (not_spellable_iff.mp hspell)
    · obtain rfl := Option.some.inj h
      have hspell' : n.Spellable := by_contra fun hnot => hspell (not_spellable_iff.mpr hnot)
      exact .deadEnd (hblank ∘ nameBlank_iff.mpr) hspell' (not_leadsOn_iff.mp hend)
  · intro h
    cases h with
    | emptyName hblank => rw [if_pos (nameBlank_iff.mpr hblank), habove]
    | unreadableLiteral hnamed hspell =>
        rw [if_neg (hnamed ∘ nameBlank_iff.mp), if_pos (not_spellable_iff.mpr hspell)]
    | deadEnd hnamed hspell hend =>
        rw [if_neg (hnamed ∘ nameBlank_iff.mp), if_neg fun hnot => not_spellable_iff.mp hnot hspell,
          if_pos (not_leadsOn_iff.mpr hend)]

theorem ownFault?_eq_none_iff {above : List String} {n : Node Source Value} :
    ownFault? above n = none ↔ n.Works := by
  constructor
  · intro h
    by_contra hnot
    obtain ⟨fault, hfault⟩ := exists_hasFault_of_not_works (above ++ [n.name]) hnot
    rw [ownFault?_eq_some_iff.mpr hfault] at h
    cases h
  · intro hworks
    cases hown : ownFault? above n with
    | none => rfl
    | some fault => exact absurd hworks (ownFault?_eq_some_iff.mp hown).not_works

/-! ### The order of the walk -/

/-- The walk comes to the first path before it comes to the second. -/
def Precedes (earlier path : List String) : Prop :=
  List.Lex (fun name name' => Text.utf8 name < Text.utf8 name') earlier path

theorem not_precedes_nil (path : List String) : ¬ Precedes path [] := by
  intro h
  cases h

theorem nil_precedes_cons (name : String) (path : List String) : Precedes [] (name :: path) := .nil

theorem precedes_cons_iff {name name' : String} {path path' : List String} :
    Precedes (name :: path) (name' :: path') ↔ name < name' ∨ name = name' ∧ Precedes path path' := by
  rw [← Text.utf8_lt_iff]
  constructor
  · intro h
    cases h with
    | rel hlt => exact .inl hlt
    | cons hrest => exact .inr ⟨rfl, hrest⟩
  · rintro (hlt | ⟨rfl, hrest⟩)
    · exact .rel hlt
    · exact .cons hrest

/-! ### The fault of a tree -/

theorem faultBelow?_of_hasFault {n : Node Source Value} {above : List String} {fault : TreeFault}
    (hfault : n.HasFault (above ++ [n.name]) fault) : n.faultBelow? above = some fault := by
  obtain ⟨h, children⟩ := n
  rw [faultBelow?_eq, ownFault?_eq_some_iff.mpr hfault, Option.some_or]

/-- Below a node that works, the fault is that of the first child by name that has one. -/
theorem faultBelow?_of_works {n : Node Source Value} (hn : n.NamesDistinct) (hworks : n.Works)
    {above : List String} {fault : TreeFault} :
    n.faultBelow? above = some fault
      ↔ ∃ c ∈ n.children, c.faultBelow? (above ++ [n.name]) = some fault
        ∧ ∀ d ∈ n.children, d.name < c.name → d.faultBelow? (above ++ [n.name]) = none := by
  obtain ⟨h, children⟩ := n
  rw [faultBelow?_eq, ownFault?_eq_none_iff.mpr hworks, Option.none_or]
  exact Text.findSome?_sortByKey_eq_some_iff hn.nodup

theorem faultBelow?_eq_none_of_works {n : Node Source Value} (hworks : n.Works)
    {above : List String} :
    n.faultBelow? above = none ↔ ∀ c ∈ n.children, c.faultBelow? (above ++ [n.name]) = none := by
  obtain ⟨h, children⟩ := n
  rw [faultBelow?_eq, ownFault?_eq_none_iff.mpr hworks, Option.none_or, List.findSome?_eq_none_iff]
  simp only [(Text.sortByKey_perm name children).mem_iff]
  rfl

theorem works_of_faultBelow?_eq_none {n : Node Source Value} {above : List String}
    (h : n.faultBelow? above = none) : n.Works := by
  by_contra hnot
  obtain ⟨fault, hfault⟩ := exists_hasFault_of_not_works (above ++ [n.name]) hnot
  rw [faultBelow?_of_hasFault hfault] at h
  cases h

/-- Without distinct names, too, no fault is found exactly if every node works. -/
theorem faultBelow?_eq_none_iff_everywhere {n : Node Source Value} (above : List String) :
    n.faultBelow? above = none ↔ n.Everywhere fun h children => Works ⟨h, children⟩ := by
  induction n using inductionOnChildren generalizing above with
  | node h children ih =>
      constructor
      · intro hnone
        have hworks := works_of_faultBelow?_eq_none hnone
        have hbelow := (faultBelow?_eq_none_of_works hworks).mp hnone
        exact .node hworks fun c hc => (ih c hc _).mp (hbelow c hc)
      · intro hall
        refine (faultBelow?_eq_none_of_works hall.here).mpr fun c hc => ?_
        exact (ih c hc _).mpr (hall.of_mem hc)

theorem faultBelow?_eq_none_iff {n : Node Source Value} (hn : n.NamesDistinct)
    (above : List String) :
    n.faultBelow? above = none ↔ ∀ path m, n.at? path = some m → m.Works := by
  rw [faultBelow?_eq_none_iff_everywhere, hn.everywhere_iff]
  simp only [mk_header_children]

/-- The fault that is found is that of the first faulty node on the walk. -/
theorem faultBelow?_eq_some_iff {n : Node Source Value} (hn : n.NamesDistinct)
    (above : List String) {fault : TreeFault} :
    n.faultBelow? above = some fault
      ↔ ∃ path m, n.at? path = some m ∧ m.HasFault (above ++ n.name :: path) fault
        ∧ ∀ earlier m', n.at? earlier = some m' → Precedes earlier path → m'.Works := by
  induction hn generalizing above with
  | @node h children hnodup hchildren ih =>
      have hn : NamesDistinct ⟨h, children⟩ := .node hnodup hchildren
      by_cases hworks : Works ⟨h, children⟩
      · rw [faultBelow?_of_works hn hworks]
        constructor
        · rintro ⟨c, hmem, hfault, hsmaller⟩
          obtain ⟨path, m, hat, hfault, hearlier⟩ := (ih c hmem _).mp hfault
          refine ⟨c.name :: path, m, ?_, by simpa using hfault, ?_⟩
          · exact hn.at?_cons_eq_some_iff.mpr ⟨c, hmem, rfl, hat⟩
          · intro earlier m' hat' hprecedes
            cases earlier with
            | nil =>
                rw [at?] at hat'
                exact Option.some.inj hat' ▸ hworks
            | cons name earlier =>
                obtain ⟨d, hdmem, rfl, hbelow⟩ := hn.at?_cons_eq_some_iff.mp hat'
                rcases precedes_cons_iff.mp hprecedes with hlt | ⟨hname, hrest⟩
                · have hnone := hsmaller d hdmem hlt
                  exact (faultBelow?_eq_none_iff (hchildren d hdmem) _).mp hnone earlier m' hbelow
                · obtain rfl : d = c := List.inj_on_of_nodup_map hnodup hdmem hmem hname
                  exact hearlier earlier m' hbelow hrest
        · rintro ⟨path, m, hat, hfault, hearlier⟩
          cases path with
          | nil =>
              rw [at?] at hat
              obtain rfl := Option.some.inj hat
              exact absurd hworks hfault.not_works
          | cons name path =>
              obtain ⟨c, hmem, rfl, hbelow⟩ := hn.at?_cons_eq_some_iff.mp hat
              refine ⟨c, hmem, ?_, ?_⟩
              · refine (ih c hmem _).mpr ⟨path, m, hbelow, by simpa using hfault, ?_⟩
                intro earlier m' hat' hprecedes
                have hbelow' : Precedes (c.name :: earlier) (c.name :: path) :=
                  precedes_cons_iff.mpr (.inr ⟨rfl, hprecedes⟩)
                exact hearlier _ m' (hn.at?_cons_eq_some_iff.mpr ⟨c, hmem, rfl, hat'⟩) hbelow'
              · intro d hdmem hlt
                refine (faultBelow?_eq_none_iff (hchildren d hdmem) _).mpr fun path' m' hat' => ?_
                have hbeside : Precedes (d.name :: path') (c.name :: path) :=
                  precedes_cons_iff.mpr (.inl hlt)
                exact hearlier _ m' (hn.at?_cons_eq_some_iff.mpr ⟨d, hdmem, rfl, hat'⟩) hbeside
      · obtain ⟨own, hown⟩ := exists_hasFault_of_not_works (above ++ [name ⟨h, children⟩]) hworks
        rw [faultBelow?_of_hasFault hown]
        constructor
        · intro hfault
          obtain rfl := Option.some.inj hfault
          exact ⟨[], _, rfl, hown, fun _ _ _ hprecedes => absurd hprecedes (not_precedes_nil _)⟩
        · rintro ⟨path, m, hat, hfault, hearlier⟩
          cases path with
          | nil =>
              rw [at?] at hat
              obtain rfl := Option.some.inj hat
              rw [← faultBelow?_of_hasFault hown, faultBelow?_of_hasFault hfault]
          | cons name path => exact absurd (hearlier [] _ rfl (nil_precedes_cons name path)) hworks

end Node

/-! ### The fault of a definition -/

namespace TreeDefinition

variable {Source : Type} [PermissionSource Source]

/-- The roots are built unless the search for a fault among them finds one. -/
theorem build_eq (d : TreeDefinition) :
    (d.build : Except TreeFault (List (Node Source ArgumentValue)))
      = match d.roots.findSome? fun root => (root.compile : Node Source ArgumentValue).fault? with
        | some fault => .error fault
        | none => .ok (d.roots.map NodeDefinition.compile) := by
  rw [build]
  generalize d.roots = roots
  induction roots with
  | nil => rfl
  | cons root roots ih =>
      rw [build.go, List.findSome?_cons, ih]
      cases (root.compile : Node Source ArgumentValue).fault? with
      | some fault => rfl
      | none =>
          cases roots.findSome? fun root => (root.compile : Node Source ArgumentValue).fault? <;> rfl

theorem buildRoots_eq_error_iff {d : TreeDefinition} {error : DefinitionError} :
    (d.buildRoots : Except DefinitionError (List (Node Source ArgumentValue))) = .error error
      ↔ ∃ before root after fault, d.roots = before ++ root :: after
        ∧ (∀ r ∈ before, (r.compile : Node Source ArgumentValue).fault? = none)
        ∧ (root.compile : Node Source ArgumentValue).fault? = some fault
        ∧ error = .invalidTree fault := by
  have hsearch : (d.buildRoots : Except DefinitionError (List (Node Source ArgumentValue)))
        = .error error
      ↔ ∃ fault, (d.roots.findSome? fun root => (root.compile : Node Source ArgumentValue).fault?)
          = some fault ∧ error = .invalidTree fault := by
    rw [buildRoots, build_eq]
    cases d.roots.findSome? fun root => (root.compile : Node Source ArgumentValue).fault? with
    | some fault => simp [eq_comm]
    | none => simp
  rw [hsearch]
  simp only [List.findSome?_eq_some_iff]
  constructor
  · rintro ⟨fault, ⟨before, root, after, hsplit, hroot, hbefore⟩, rfl⟩
    exact ⟨before, root, after, fault, hsplit, hbefore, hroot, rfl⟩
  · rintro ⟨before, root, after, fault, hsplit, hbefore, hroot, rfl⟩
    exact ⟨fault, ⟨before, root, after, hsplit, hroot, hbefore⟩, rfl⟩

theorem buildRoots_eq_ok_iff {d : TreeDefinition} {nodes : List (Node Source ArgumentValue)} :
    d.buildRoots = .ok nodes
      ↔ (∀ root ∈ d.roots, (root.compile : Node Source ArgumentValue).fault? = none)
        ∧ nodes = d.roots.map NodeDefinition.compile := by
  rw [← List.findSome?_eq_none_iff (p := fun root : NodeDefinition =>
    (root.compile : Node Source ArgumentValue).fault?), buildRoots, build_eq]
  cases d.roots.findSome? fun root => (root.compile : Node Source ArgumentValue).fault? with
  | some fault => simp
  | none => simp [eq_comm]

end TreeDefinition

namespace Node

/-- **The first fault is the one reported.** A tree has no fault exactly if every node works. Its
fault is that of a node before which every node on the walk works, and names the way to it: to its
parent for a blank name, the root having none. Building fails with the fault of the first root that
has one, and otherwise gives all roots in their order. A walk with one list of names in hand finds
the same fault, and if there is none it ends with the names that it started with. -/
theorem first_fault_reported :
    (∀ {Source Value : Type} (t : Node Source Value), t.NamesDistinct →
      (t.fault? = none ↔ ∀ path n, t.at? path = some n → n.Works)
      ∧ ∀ fault, t.fault? = some fault
        ↔ ∃ path n, t.at? path = some n ∧ n.HasFault (t.name :: path) fault
          ∧ ∀ earlier m, t.at? earlier = some m → Precedes earlier path → m.Works)
    ∧ (∀ names : List String, (TreeFault.unreadableLiteral names).path = " ".intercalate names
      ∧ (TreeFault.deadEnd names).path = " ".intercalate names
      ∧ (TreeFault.emptyName names).path
        = if names = [] then "<root>" else " ".intercalate names)
    ∧ (∀ {Source : Type} [PermissionSource Source] (d : TreeDefinition),
      (∀ root ∈ d.roots, (root.compile : Node Source ArgumentValue).NamesDistinct)
      ∧ (∀ error, (d.buildRoots : Except DefinitionError (List (Node Source ArgumentValue)))
          = .error error
        ↔ ∃ before root after fault, d.roots = before ++ root :: after
          ∧ (∀ r ∈ before, (r.compile : Node Source ArgumentValue).fault? = none)
          ∧ (root.compile : Node Source ArgumentValue).fault? = some fault
          ∧ error = .invalidTree fault)
      ∧ ∀ nodes : List (Node Source ArgumentValue), d.buildRoots = .ok nodes
        ↔ (∀ root ∈ d.roots, (root.compile : Node Source ArgumentValue).fault? = none)
          ∧ nodes = d.roots.map NodeDefinition.compile)
    ∧ ∀ {Source Value : Type} (t : Node Source Value), (t.faultWalk ⟨[], none⟩).fault = t.fault?
      ∧ ∀ names, (t.faultWalk ⟨names, none⟩).fault = none →
        (t.faultWalk ⟨names, none⟩).names = names := by
  refine ⟨fun t ht => ⟨?_, fun fault => ?_⟩, fun names => ⟨?_, ?_, ?_⟩, fun d => ⟨?_, ?_, ?_⟩,
    fun t => ⟨?_, fun names hnone => ?_⟩⟩
  · exact faultBelow?_eq_none_iff ht []
  · exact faultBelow?_eq_some_iff ht []
  · exact TreeFault.joinNames_eq_intercalate names
  · exact TreeFault.joinNames_eq_intercalate names
  · cases names with
    | nil => rfl
    | cons name names => exact TreeFault.joinNames_eq_intercalate (name :: names)
  · exact fun root _ => root.namesDistinct_compile
  · exact fun error => TreeDefinition.buildRoots_eq_error_iff
  · exact fun nodes => TreeDefinition.buildRoots_eq_ok_iff
  · rw [faultWalk_eq, FaultWalk.fault_ended, fault?]
  · rw [faultWalk_eq, FaultWalk.fault_ended] at hnone
    rw [faultWalk_eq, hnone, FaultWalk.ended]

/-- A keyword over one that leads nowhere and, before it by name, one over a blank argument. -/
def twoFaults : Node Unit ArgumentValue :=
  ⟨.literal "root" true,
    [⟨.literal "b" true, []⟩, ⟨.literal "a" true, [⟨.argument " " Parser.word, []⟩]⟩]⟩

theorem namesDistinct_twoFaults : twoFaults.NamesDistinct := by
  refine .node (by decide) fun c hc => ?_
  rcases List.mem_cons.mp hc with rfl | hc
  · exact namesDistinct_leaf _
  · obtain rfl := List.mem_singleton.mp hc
    refine .node (by decide) fun c hc => ?_
    obtain rfl := List.mem_singleton.mp hc
    exact namesDistinct_leaf _

/-- The blank argument is found, and what the walk meets before it works. -/
theorem first_fault_reported_twoFaults :
    twoFaults.NamesDistinct ∧ twoFaults.fault? = some (.emptyName ["root", "a"])
      ∧ ∃ path n, twoFaults.at? path = some n
        ∧ n.HasFault ("root" :: path) (.emptyName ["root", "a"])
        ∧ ∀ earlier m, twoFaults.at? earlier = some m → Precedes earlier path → m.Works := by
  have hfault : twoFaults.fault? = some (.emptyName ["root", "a"]) := by rfl
  refine ⟨namesDistinct_twoFaults, hfault, ?_⟩
  exact ((first_fault_reported.1 twoFaults namesDistinct_twoFaults).2 _).mp hfault

end Node

end CommandGrammar
