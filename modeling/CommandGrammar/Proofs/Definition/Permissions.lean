import CommandGrammar.Proofs.Definition.Compiled
import CommandGrammar.Proofs.Tree.Paths
import CommandGrammar.Proofs.Tree.Visibility

/-!
# What permissions decide

Every requirement in a compiled tree asks for one permission that the definition mentions. So a set
that grants more shows more, and what the definition does not mention makes no difference.
-/

namespace CommandGrammar

namespace Node

variable {Source Value : Type} {a b : Source}

/-- Whoever the requirement lets pass as `a` it lets pass as `b`. -/
def AdmitsMore (a b : Source) (h : NodeHeader Source Value) : Prop :=
  ∀ requirement, h.requirement = some requirement → requirement a = true → requirement b = true

def AdmitsAlike (a b : Source) (h : NodeHeader Source Value) : Prop :=
  ∀ requirement, h.requirement = some requirement → requirement a = requirement b

theorem AdmitsMore.usable {n : Node Source Value} (h : AdmitsMore a b n.header)
    (ha : n.Usable a) : n.Usable b :=
  fun requirement hr => h requirement hr (ha requirement hr)

theorem UsableAlong.of_admitsMore {t : Node Source Value}
    (h : t.Everywhere fun header _ => AdmitsMore a b header) {path : List String}
    (ha : t.UsableAlong a path) : t.UsableAlong b path :=
  fun way hway n hat => (h.of_at? hat).here.usable (ha way hway n hat)

end Node

namespace Snapshot

variable {Source Value : Type} {a b : Source}

/-- A source that passes wherever another one does finds what that one finds. -/
theorem find?_of_admitsMore {t : Node Source Value} (ht : t.NamesDistinct)
    (h : t.Everywhere fun header _ => Node.AdmitsMore a b header) {v s : Snapshot}
    {path : List String} (hv : captureVisible a t = some v) (hs : v.find? path = some s) :
    ∃ w r, captureVisible b t = some w ∧ w.find? path = some r ∧ r.header = s.header := by
  obtain ⟨n, hat, halong, hn⟩ := (find?_captureVisible_eq_some_iff ht).mp
    (Option.bind_eq_some_iff.mpr ⟨v, hv, hs⟩)
  have halong' := halong.of_admitsMore h
  obtain ⟨r, hr⟩ := isSome_captureVisible_of_usableAlong halong' hat
  obtain ⟨w, hw, hfind⟩ := Option.bind_eq_some_iff.mp
    ((find?_captureVisible_eq_some_iff ht).mpr ⟨n, hat, halong', hr⟩)
  refine ⟨w, r, hw, hfind, ?_⟩
  obtain ⟨-, rfl⟩ := captureVisible_eq_some_iff.mp hn
  obtain ⟨-, rfl⟩ := captureVisible_eq_some_iff.mp hr
  rfl

theorem captureVisible_eq_of_admitsAlike {t : Node Source Value}
    (h : t.Everywhere fun header _ => Node.AdmitsAlike a b header) :
    captureVisible a t = captureVisible b t := by
  induction h with
  | @node header children hhere _ ih =>
      have huse : Node.canUse ⟨header, children⟩ a = Node.canUse ⟨header, children⟩ b := by
        unfold Node.canUse
        split
        · rfl
        · rename_i requirement hr
          exact hhere requirement hr
      rw [captureVisible, captureVisible, huse, Node.captureAllVisible_eq_filterMap,
        Node.captureAllVisible_eq_filterMap, List.filterMap_congr ih]

/-! ### Listed paths -/

theorem labelPaths_subset_of_admitsMore {t : Node Source Value}
    (h : t.Everywhere fun header _ => Node.AdmitsMore a b header) {v : Snapshot}
    (hv : captureVisible a t = some v) :
    ∃ w, captureVisible b t = some w ∧ ∀ above, labelPaths above v ⊆ labelPaths above w := by
  induction h generalizing v with
  | @node header children hhere _ ih =>
      obtain ⟨huse, rfl⟩ := captureVisible_eq_some_iff.mp hv
      refine ⟨_, captureVisible_eq_some_iff.mpr ⟨Node.AdmitsMore.usable hhere huse, rfl⟩, ?_⟩
      intro above labels hlabels
      rw [mem_labelPaths_iff] at hlabels ⊢
      rcases hlabels with hend | ⟨s, hmem, hbelow⟩
      · exact .inl hend
      · obtain ⟨c, hc, hs⟩ := List.mem_filterMap.mp ((Text.sortByKey_perm _ _).mem_iff.mp hmem)
        obtain ⟨r, hr, hsubset⟩ := ih c hc hs
        refine .inr ⟨r, (Text.sortByKey_perm _ _).mem_iff.mpr (List.mem_filterMap.mpr ⟨c, hc, hr⟩), ?_⟩
        exact hsubset _ hbelow

theorem paths_subset_of_admitsMore {t : Node Source Value}
    (h : t.Everywhere fun header _ => Node.AdmitsMore a b header) {v : Snapshot}
    (hv : captureVisible a t = some v) :
    ∃ w, captureVisible b t = some w ∧ v.paths ⊆ w.paths := by
  obtain ⟨w, hw, hsubset⟩ := labelPaths_subset_of_admitsMore h hv
  refine ⟨w, hw, fun text htext => ?_⟩
  obtain ⟨labels, hlabels, heq⟩ := mem_paths_iff.mp htext
  exact mem_paths_iff.mpr ⟨labels, hsubset [] hlabels, heq⟩

end Snapshot

/-! ### Requirements of a definition -/

namespace NodeDefinition

/-- The definition or one below it asks for the permission. -/
def Mentions (d : NodeDefinition) (permission : String) : Prop :=
  ∃ e : NodeDefinition, e.Within d ∧ e.requires = some permission

/-- No merge brings in a requirement that the definition does not have. -/
theorem everywhere_requirement {Source : Type} [PermissionSource Source] (d : NodeDefinition) :
    (d.compile : Node Source ArgumentValue).Everywhere fun header _ =>
      ∀ requirement, header.requirement = some requirement → ∃ permission, d.Mentions permission
        ∧ requirement = fun source => PermissionSource.hasPermission source permission := by
  refine everywhere_compile (fun _ _ _ h => h) d fun e he requirement hr => ?_
  obtain ⟨permission, hrequires, rfl⟩ := Option.map_eq_some_iff.mp hr
  exact ⟨permission, ⟨e, he, hrequires⟩, rfl⟩

/-- What a set of permissions shows of the tree of a definition. -/
def shownTo (granted : PermissionSet) (d : NodeDefinition) : Option Snapshot :=
  Snapshot.captureVisible granted (d.compile : Node PermissionSet ArgumentValue)

theorem hasPermission_iff {granted : PermissionSet} {permission : String} :
    PermissionSource.hasPermission granted permission = true ↔ permission ∈ granted.names :=
  List.contains_iff_mem

theorem admitsMore_of_subset {A B : PermissionSet} (hsubset : A.names ⊆ B.names)
    (d : NodeDefinition) :
    (d.compile : Node PermissionSet ArgumentValue).Everywhere fun header _ =>
      Node.AdmitsMore A B header := by
  refine d.everywhere_requirement.mono fun header _ h requirement hr hA => ?_
  obtain ⟨permission, -, rfl⟩ := h requirement hr
  exact hasPermission_iff.mpr (hsubset (hasPermission_iff.mp hA))

theorem admitsAlike_of_agree {A B : PermissionSet} {d : NodeDefinition}
    (hagree : ∀ permission, d.Mentions permission → (permission ∈ A.names ↔ permission ∈ B.names)) :
    (d.compile : Node PermissionSet ArgumentValue).Everywhere fun header _ =>
      Node.AdmitsAlike A B header := by
  refine d.everywhere_requirement.mono fun header _ h requirement hr => ?_
  obtain ⟨permission, hmentions, rfl⟩ := h requirement hr
  rw [Bool.eq_iff_iff, hasPermission_iff, hasPermission_iff]
  exact hagree permission hmentions

end NodeDefinition

namespace TreeDefinition

/-- Some definition in the file asks for the permission. -/
def Mentions (d : TreeDefinition) (permission : String) : Prop :=
  ∃ root ∈ d.roots, root.Mentions permission

/-- **Permissions act by the names that are mentioned, and only ever show more.** Whatever a set of
permissions finds in the tree of a root, a larger set finds at the same path with the same header,
and it lists all the paths that the smaller set lists. Sets that agree on the permissions the file
mentions show the same. -/
theorem shownTo_by_mentioned_permissions (d : TreeDefinition) {root : NodeDefinition}
    (hroot : root ∈ d.roots) (A B : PermissionSet) :
    (A.names ⊆ B.names →
      (∀ path v s, root.shownTo A = some v → v.find? path = some s →
        ∃ w r, root.shownTo B = some w ∧ w.find? path = some r ∧ r.header = s.header)
      ∧ ∀ v, root.shownTo A = some v → ∃ w, root.shownTo B = some w ∧ v.paths ⊆ w.paths)
    ∧ ((∀ permission, d.Mentions permission → (permission ∈ A.names ↔ permission ∈ B.names)) →
      root.shownTo A = root.shownTo B) := by
  constructor
  · intro hsubset
    have hmore := root.admitsMore_of_subset hsubset
    constructor
    · intro path v s hv hs
      exact Snapshot.find?_of_admitsMore root.namesDistinct_compile hmore hv hs
    · intro v hv
      exact Snapshot.paths_subset_of_admitsMore hmore hv
  · intro hagree
    apply Snapshot.captureVisible_eq_of_admitsAlike
    apply NodeDefinition.admitsAlike_of_agree
    intro permission hmentions
    exact hagree permission ⟨root, hroot, hmentions⟩

/-- The time may be shown by all and set with a permission. -/
def timeKeyword : NodeDefinition :=
  ((NodeDefinition.literal "time").withChild
    ((NodeDefinition.literal "show").withExecutes default)).withChild
    (((NodeDefinition.literal "set").withRequires "time.set").withExecutes default)

def settableTime : TreeDefinition := .ofRoots [timeKeyword]

theorem mentions_settableTime {permission : String} (h : settableTime.Mentions permission) :
    permission = "time.set" := by
  obtain ⟨root, hroot, e, hwithin, hrequires⟩ := h
  obtain rfl := List.mem_singleton.mp hroot
  cases hwithin with
  | self => cases hrequires
  | inChild hmem hwithin =>
      have hchildren : timeKeyword.children = [(NodeDefinition.literal "show").withExecutes default,
        ((NodeDefinition.literal "set").withRequires "time.set").withExecutes default] := rfl
      rw [hchildren, List.mem_pair] at hmem
      rcases hmem with rfl | rfl
      · cases hwithin with
        | self => cases hrequires
        | inChild hmem _ => cases hmem
      · cases hwithin with
        | self => exact (Option.some.inj hrequires).symm
        | inChild hmem _ => cases hmem

/-- Without the permission the time can be shown, with it also set, and `show` is found by both. A
permission that is not mentioned shows what none shows. -/
theorem shownTo_by_mentioned_permissions_settableTime :
    timeKeyword ∈ settableTime.roots
      ∧ (∃ v w s r, timeKeyword.shownTo .empty = some v ∧ timeKeyword.shownTo ⟨["time.set"]⟩ = some w
        ∧ v.paths = ["time show"] ∧ w.paths = ["time set", "time show"] ∧ v.paths ⊆ w.paths
        ∧ v.find? ["show"] = some s ∧ w.find? ["show"] = some r ∧ r.header = s.header)
      ∧ timeKeyword.shownTo .empty = timeKeyword.shownTo ⟨["ban"]⟩ := by
  have hroot : timeKeyword ∈ settableTime.roots := List.mem_singleton_self timeKeyword
  refine ⟨hroot, ?_, ?_⟩
  · have hsubset : PermissionSet.empty.names ⊆ ["time.set"] := List.nil_subset _
    obtain ⟨hfound, hlisted⟩ :=
      (shownTo_by_mentioned_permissions settableTime hroot .empty ⟨["time.set"]⟩).1 hsubset
    have hnone : (timeKeyword.shownTo .empty).any (fun v =>
        v.paths == ["time show"] && (v.find? ["show"]).isSome) = true := by decide +kernel
    have hset : (timeKeyword.shownTo ⟨["time.set"]⟩).any (fun w =>
        w.paths == ["time set", "time show"]) = true := by decide +kernel
    obtain ⟨v, hv, hnone⟩ := (Option.any_eq_true _ _).mp hnone
    obtain ⟨w, hw, hset⟩ := (Option.any_eq_true _ _).mp hset
    obtain ⟨hpaths, hshow⟩ := Bool.and_eq_true_iff.mp hnone
    obtain ⟨s, hs⟩ := Option.isSome_iff_exists.mp hshow
    obtain ⟨w', r, hw', hr, hheader⟩ := hfound ["show"] v s hv hs
    obtain ⟨w'', hw'', hsub⟩ := hlisted v hv
    obtain rfl : w = w' := Option.some.inj (hw.symm.trans hw')
    obtain rfl : w = w'' := Option.some.inj (hw.symm.trans hw'')
    exact ⟨v, w, s, r, hv, hw, eq_of_beq hpaths, eq_of_beq hset, hsub, hs, hr, hheader⟩
  · refine (shownTo_by_mentioned_permissions settableTime hroot .empty ⟨["ban"]⟩).2 ?_
    intro permission hmentions
    obtain rfl := mentions_settableTime hmentions
    decide

end TreeDefinition

end CommandGrammar
