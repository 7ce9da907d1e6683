import CommandGrammar.Proofs.Text.Sorting
import CommandGrammar.Proofs.Tree.Children
import CommandGrammar.Tree.Snapshot
import CommandGrammar.Tree.Validation
import Mathlib.Data.List.Forall2

/-!
# The order in which children are enumerated

Children form a map from names, and nothing says in which order such a map lists its entries. Adding
children, taking snapshots and validating give the same result for every order.
-/

namespace CommandGrammar.Node

variable {Source Value : Type}

/-! ### Adding in any order -/

/-- Children of pairwise different names may be added in any order. -/
theorem foldl_addChild_eq_of_perm {cs ds : List (Node Source Value)} (hnodup : (cs.map name).Nodup)
    (hperm : cs.Perm ds) (parent : Node Source Value) :
    cs.foldl addChild parent = ds.foldl addChild parent := by
  refine hperm.foldl_eq' (fun c hc d hd n => ?_) parent
  by_cases heq : c.name = d.name
  · rw [List.inj_on_of_nodup_map hnodup hc hd heq]
  · exact addTo_comm n (Ne.symm heq)

mutual

/-- `c.AddsTo parent n`: adding `c` to `parent` may give `n`, when at every merge the children to be
handed on are enumerated in an order of its own. -/
inductive AddsTo : Node Source Value → Node Source Value → Node Source Value → Prop where
  | replace {c parent : Node Source Value} (hkind : parent.isLiteral = true) :
      AddsTo c parent ⟨parent.header, put c parent.children⟩
  | insert {c parent : Node Source Value} (hkind : parent.isLiteral = false)
      (hfree : parent.child? c.name = none) :
      AddsTo c parent ⟨parent.header, put c parent.children⟩
  | merge {c parent old merged : Node Source Value} {order : List (Node Source Value)}
      (hkind : parent.isLiteral = false) (hold : parent.child? c.name = some old)
      (horder : order.Perm c.children) (hmerged : AddsAllTo order old merged) :
      AddsTo c parent ⟨parent.header, put merged parent.children⟩

inductive AddsAllTo : List (Node Source Value) → Node Source Value → Node Source Value → Prop where
  | nil {parent : Node Source Value} : AddsAllTo [] parent parent
  | cons {c parent middle n : Node Source Value} {cs : List (Node Source Value)}
      (hfirst : AddsTo c parent middle) (hrest : AddsAllTo cs middle n) :
      AddsAllTo (c :: cs) parent n

end

theorem addsAllTo_iff {cs : List (Node Source Value)}
    (hcs : ∀ c ∈ cs, ∀ parent n : Node Source Value, c.AddsTo parent n ↔ n = c.addTo parent)
    {parent n : Node Source Value} : AddsAllTo cs parent n ↔ n = addAllTo cs parent := by
  induction cs generalizing parent with
  | nil =>
      constructor
      · intro h
        cases h
        rfl
      · rintro rfl
        exact .nil
  | cons c cs ih =>
      have hrest := fun d hd => hcs d (List.mem_cons_of_mem c hd)
      rw [addAllTo]
      constructor
      · intro h
        cases h with
        | cons hfirst hcs' =>
            obtain rfl := (hcs c List.mem_cons_self _ _).mp hfirst
            exact (ih hrest).mp hcs'
      · intro h
        exact .cons ((hcs c List.mem_cons_self _ _).mpr rfl) ((ih hrest).mpr h)

/-- Whatever the enumerations are, adding a child has one result. -/
theorem addsTo_iff {c : Node Source Value} (hc : c.NamesDistinct) {parent n : Node Source Value} :
    c.AddsTo parent n ↔ n = c.addTo parent := by
  induction hc generalizing parent n with
  | @node h children hnodup _ ih =>
      have hmerge : ∀ {order : List (Node Source Value)} {old merged : Node Source Value},
          order.Perm children → (AddsAllTo order old merged ↔ merged = addAllTo children old) := by
        intro order old merged horder
        rw [addsAllTo_iff fun c hc => fun _ _ => ih c (horder.mem_iff.mp hc), addAllTo_eq_foldl,
          addAllTo_eq_foldl, foldl_addChild_eq_of_perm hnodup horder.symm]
      rw [addTo_eq]
      constructor
      · intro hadds
        cases hadds with
        | replace hkind => rw [joined_of_isLiteral _ hkind]
        | insert _ hfree => rw [joined_of_child?_eq_none hfree]
        | merge hkind hold horder hmerged =>
            rw [joined_of_isLiteral_eq_false hkind hold, (hmerge horder).mp hmerged]
      · rintro rfl
        cases hkind : parent.isLiteral with
        | true =>
            rw [joined_of_isLiteral _ hkind]
            exact .replace hkind
        | false =>
            cases hold : parent.child? (name ⟨h, children⟩) with
            | none =>
                rw [joined_of_child?_eq_none hold]
                exact .insert hkind hold
            | some old =>
                rw [joined_of_isLiteral_eq_false hkind hold]
                exact .merge hkind hold (.refl _) ((hmerge (.refl _)).mpr rfl)

/-! ### Looking at trees that list their children in another order -/

/-- The same tree with the children of any node in another order. -/
inductive Reordered : Node Source Value → Node Source Value → Prop where
  | node {h : NodeHeader Source Value} {cs ms ds : List (Node Source Value)}
      (hbelow : List.Forall₂ Reordered cs ms) (horder : ms.Perm ds) : Reordered ⟨h, cs⟩ ⟨h, ds⟩

/-- What does not see the order below the children themselves is the same list up to its order. -/
theorem map_perm_of_forall₂ {β : Type} {f : Node Source Value → β} {cs ms ds : List (Node Source Value)}
    (hf : ∀ c ∈ cs, ∀ d, Reordered c d → f c = f d) (hbelow : List.Forall₂ Reordered cs ms)
    (horder : ms.Perm ds) : (cs.map f).Perm (ds.map f) := by
  have heq : cs.map f = ms.map f := by
    clear horder
    induction hbelow with
    | nil => rfl
    | @cons c m cs ms hcm _ ih =>
        rw [List.map_cons, List.map_cons, hf c List.mem_cons_self m hcm,
          ih fun c hc => hf c (List.mem_cons_of_mem _ hc)]
  rw [heq]
  exact horder.map f

theorem Reordered.name_eq {t t' : Node Source Value} (h : Reordered t t') : t.name = t'.name := by
  cases h with
  | node _ _ => rfl

theorem exists_of_mem_of_forall₂ {R : Node Source Value → Node Source Value → Prop}
    {cs ms : List (Node Source Value)} (h : List.Forall₂ R cs ms) {m : Node Source Value}
    (hm : m ∈ ms) : ∃ c ∈ cs, R c m := by
  induction h with
  | nil => cases hm
  | @cons c first cs ms hfirst _ ih =>
      rcases List.mem_cons.mp hm with rfl | hm
      · exact ⟨c, List.mem_cons_self, hfirst⟩
      · obtain ⟨d, hd, hdm⟩ := ih hm
        exact ⟨d, List.mem_cons_of_mem c hd, hdm⟩

theorem NamesDistinct.of_reordered {t t' : Node Source Value} (ht : t.NamesDistinct)
    (hreordered : Reordered t t') : t'.NamesDistinct := by
  induction ht generalizing t' with
  | @node h cs hnodup _ ih =>
      cases hreordered with
      | @node _ _ ms ds hbelow horder =>
          have hnames := map_perm_of_forall₂ (fun c _ d hcd => hcd.name_eq) hbelow horder
          refine .node (hnames.nodup_iff.mp hnodup) fun d hd => ?_
          obtain ⟨c, hc, hcd⟩ := exists_of_mem_of_forall₂ hbelow (horder.mem_iff.mpr hd)
          exact ih c hc hcd

theorem captureAll_eq_map (cs : List (Node Source Value)) :
    Snapshot.captureAll cs = cs.map Snapshot.capture := by
  induction cs with
  | nil => rfl
  | cons c cs ih => rw [Snapshot.captureAll, ih, List.map_cons]

@[simp]
theorem name_capture (c : Node Source Value) : (Snapshot.capture c).name = c.name := by
  obtain ⟨h, children⟩ := c
  rfl

theorem capture_eq_of_reordered {t t' : Node Source Value} (ht : t.NamesDistinct)
    (hreordered : Reordered t t') : Snapshot.capture t = Snapshot.capture t' := by
  induction ht generalizing t' with
  | @node h cs hnodup _ ih =>
      cases hreordered with
      | node hbelow horder =>
          have hperm := map_perm_of_forall₂ (fun c hc d hcd => ih c hc hcd) hbelow horder
          have hkeys : ((cs.map Snapshot.capture).map Snapshot.name).Nodup := by
            simpa [Function.comp_def] using hnodup
          rw [Snapshot.capture, Snapshot.capture, captureAll_eq_map, captureAll_eq_map,
            Text.sortByKey_eq_of_perm hperm hkeys]

theorem captureAllVisible_eq_filterMap (source : Source) (cs : List (Node Source Value)) :
    Snapshot.captureAllVisible source cs = cs.filterMap (Snapshot.captureVisible source) := by
  induction cs with
  | nil => rfl
  | cons c cs ih =>
      rw [Snapshot.captureAllVisible, ih]
      cases hc : Snapshot.captureVisible source c with
      | none => rw [List.filterMap_cons_none hc]
      | some s => rw [List.filterMap_cons_some hc]

theorem name_of_captureVisible {source : Source} {c : Node Source Value} {s : Snapshot}
    (h : Snapshot.captureVisible source c = some s) : s.name = c.name := by
  obtain ⟨header, children⟩ := c
  rw [Snapshot.captureVisible] at h
  split at h
  · cases h
    rfl
  · cases h

theorem captureAllVisible_names_sublist (source : Source) (cs : List (Node Source Value)) :
    ((cs.filterMap (Snapshot.captureVisible source)).map Snapshot.name).Sublist (cs.map name) := by
  induction cs with
  | nil => exact .slnil
  | cons c cs ih =>
      cases hc : Snapshot.captureVisible source c with
      | none =>
          rw [List.filterMap_cons_none hc]
          exact ih.cons c.name
      | some s =>
          rw [List.filterMap_cons_some hc, List.map_cons, List.map_cons, name_of_captureVisible hc]
          exact ih.cons_cons c.name

theorem captureVisible_eq_of_reordered (source : Source) {t t' : Node Source Value}
    (ht : t.NamesDistinct) (hreordered : Reordered t t') :
    Snapshot.captureVisible source t = Snapshot.captureVisible source t' := by
  induction ht generalizing t' with
  | @node h cs hnodup _ ih =>
      cases hreordered with
      | @node _ _ ms ds hbelow horder =>
          have hperm : (cs.filterMap (Snapshot.captureVisible source)).Perm
              (ds.filterMap (Snapshot.captureVisible source)) := by
            have hmap := map_perm_of_forall₂ (fun c hc d hcd => ih c hc hcd) hbelow horder
            simpa [List.filterMap_map, Function.comp_def] using hmap.filterMap id
          have hkeys : ((cs.filterMap (Snapshot.captureVisible source)).map Snapshot.name).Nodup :=
            hnodup.sublist (captureAllVisible_names_sublist source cs)
          rw [Snapshot.captureVisible, Snapshot.captureVisible, captureAllVisible_eq_filterMap,
            captureAllVisible_eq_filterMap, Text.sortByKey_eq_of_perm hperm hkeys]
          rfl

theorem faultsBelow_eq_map (above : List String) (cs : List (Node Source Value)) :
    faultsBelow above cs = cs.map fun c => (c.name, c.faultBelow? above) := by
  induction cs with
  | nil => rfl
  | cons c cs ih => rw [faultsBelow, ih, List.map_cons]

theorem ownFault?_congr {h : NodeHeader Source Value} {cs ds : List (Node Source Value)}
    (hlength : cs.length = ds.length) (above : List String) :
    ownFault? above ⟨h, cs⟩ = ownFault? above ⟨h, ds⟩ := by
  have hempty : cs.isEmpty = ds.isEmpty := by
    rw [Bool.eq_iff_iff, List.isEmpty_iff_length_eq_zero, List.isEmpty_iff_length_eq_zero, hlength]
  simp only [ownFault?, hempty]
  rfl

theorem faultBelow?_eq_of_reordered {t t' : Node Source Value} (ht : t.NamesDistinct)
    (hreordered : Reordered t t') (above : List String) : t.faultBelow? above = t'.faultBelow? above := by
  induction ht generalizing t' above with
  | @node h cs hnodup _ ih =>
      cases hreordered with
      | @node _ _ ms ds hbelow horder =>
          have hperm := map_perm_of_forall₂
            (f := fun c => (c.name, c.faultBelow? (above ++ [h.name])))
            (fun c hc d hcd => by rw [hcd.name_eq, ih c hc hcd]) hbelow horder
          have hkeys : ((cs.map fun c => (c.name, c.faultBelow? (above ++ [h.name]))).map
              Prod.fst).Nodup := by
            simpa [Function.comp_def] using hnodup
          rw [faultBelow?, faultBelow?, faultsBelow_eq_map, faultsBelow_eq_map,
            Text.sortByKey_eq_of_perm hperm hkeys,
            ownFault?_congr (hbelow.length_eq.trans horder.length_eq)]

/-- **No order shows.** Children of different names give one tree in whatever order they are added.
Adding a child has one result whatever order the merges choose. Trees that differ only in the order
of children have the same snapshots, full and visible, and the same first fault. -/
theorem enumeration_irrelevant :
    (∀ (parent : Node Source Value) (cs ds : List (Node Source Value)), (cs.map name).Nodup →
        cs.Perm ds → cs.foldl addChild parent = ds.foldl addChild parent)
      ∧ (∀ parent c n : Node Source Value, c.NamesDistinct →
        (c.AddsTo parent n ↔ n = parent.addChild c))
      ∧ (∀ t t' : Node Source Value, t.NamesDistinct → Reordered t t' →
        Snapshot.capture t = Snapshot.capture t'
          ∧ (∀ source, Snapshot.captureVisible source t = Snapshot.captureVisible source t')
          ∧ t.fault? = t'.fault?) := by
  refine ⟨?_, ?_, ?_⟩
  · intro parent cs ds hnodup hperm
    exact foldl_addChild_eq_of_perm hnodup hperm parent
  · intro parent c n hc
    exact addsTo_iff hc
  · intro t t' ht hreordered
    exact ⟨capture_eq_of_reordered ht hreordered,
      fun source => captureVisible_eq_of_reordered source ht hreordered,
      faultBelow?_eq_of_reordered ht hreordered []⟩

/-- A keyword over two others, in the order given. -/
def keywordOver (first second : String) : Node Unit ArgumentValue :=
  ⟨.literal "x" true, [⟨.literal first true, []⟩, ⟨.literal second true, []⟩]⟩

theorem namesDistinct_keywordOver {first second : String} (hne : first ≠ second) :
    (keywordOver first second).NamesDistinct := by
  refine .node (by simpa [name, NodeHeader.literal] using hne) fun c hc => ?_
  rcases List.mem_cons.mp hc with rfl | hc
  · exact namesDistinct_leaf _
  · obtain rfl := List.mem_singleton.mp hc
    exact namesDistinct_leaf _

theorem reordered_keywordOver (first second : String) :
    Reordered (keywordOver first second) (keywordOver second first) := by
  have hleaf : ∀ n : String, Reordered (⟨.literal n true, []⟩ : Node Unit ArgumentValue)
      ⟨.literal n true, []⟩ := fun _ => .node .nil .nil
  exact .node (.cons (hleaf first) (.cons (hleaf second) .nil)) (.swap _ _ _)

/-- The two orders of one tree look the same, are added with the same result, and the merge of the
one into the other may take its children in either order. -/
theorem enumeration_irrelevant_keywordOver :
    (keywordOver "a" "b").fault? = (keywordOver "b" "a").fault?
      ∧ Snapshot.capture (keywordOver "a" "b") = Snapshot.capture (keywordOver "b" "a")
      ∧ [keywordOver "a" "b", ⟨.literal "y" true, []⟩].foldl addChild (keywordOver "b" "a")
        = [⟨.literal "y" true, []⟩, keywordOver "a" "b"].foldl addChild (keywordOver "b" "a")
      ∧ (keywordOver "a" "b").AddsTo ⟨.argument "target" Parser.word, [keywordOver "b" "a"]⟩
        ((⟨.argument "target" Parser.word, [keywordOver "b" "a"]⟩ : Node Unit ArgumentValue).addChild
          (keywordOver "a" "b")) := by
  have hdistinct := namesDistinct_keywordOver (show "a" ≠ "b" by decide)
  obtain ⟨hcapture, -, hfault⟩ := enumeration_irrelevant.2.2 _ _ hdistinct
    (reordered_keywordOver "a" "b")
  refine ⟨hfault, hcapture, ?_, ?_⟩
  · exact enumeration_irrelevant.1 _ _ _ (by decide) (.swap _ _ _)
  · exact (enumeration_irrelevant.2.1 _ _ _ hdistinct).mpr rfl

end CommandGrammar.Node
