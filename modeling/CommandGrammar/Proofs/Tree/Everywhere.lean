import CommandGrammar.Proofs.Tree.Children
import Mathlib.Data.List.Sort

/-!
# What holds at every node

Adding a child makes no new header and lists no children but by putting one among others. So a
property of a header and the children below it that is not lost by `put` is not lost by adding
children. That children ascend by name is such a property.
-/

namespace CommandGrammar.Node

variable {Source Value : Type}

@[simp]
theorem mk_header_children (n : Node Source Value) : (⟨n.header, n.children⟩ : Node Source Value) = n := by
  cases n
  rfl

/-- What passes from the children of a node to the node holds of every tree. -/
@[elab_as_elim]
theorem inductionOnChildren {motive : Node Source Value → Prop}
    (node : ∀ h children, (∀ c ∈ children, motive c) → motive ⟨h, children⟩) :
    ∀ n, motive n
  | ⟨h, children⟩ => node h children fun c hc =>
    have := List.sizeOf_lt_of_mem hc
    inductionOnChildren node c
termination_by n => sizeOf n

/-- What children inherit holds at the end of every path. -/
theorem inherited_at? {P : Node Source Value → Prop} (hP : ∀ n, P n → ∀ c ∈ n.children, P c)
    {t n : Node Source Value} (ht : P t) {path : List String} (hat : t.at? path = some n) : P n := by
  induction path generalizing t with
  | nil => exact Option.some.inj hat ▸ ht
  | cons name path ih =>
      obtain ⟨c, hc, hat⟩ := Option.bind_eq_some_iff.mp hat
      exact ih (hP t ht c (mem_children_of_child? hc)) hat

theorem NamesDistinct.of_at? {t n : Node Source Value} (ht : t.NamesDistinct) {path : List String}
    (hat : t.at? path = some n) : n.NamesDistinct :=
  inherited_at? (fun _ hn _ => hn.of_mem) ht hat

/-- The property holds of every node of the tree, as its header and its children. -/
inductive Everywhere (P : NodeHeader Source Value → List (Node Source Value) → Prop) :
    Node Source Value → Prop where
  | node {h : NodeHeader Source Value} {children : List (Node Source Value)}
      (hhere : P h children) (hbelow : ∀ c ∈ children, Everywhere P c) : Everywhere P ⟨h, children⟩

section Everywhere

variable {P Q : NodeHeader Source Value → List (Node Source Value) → Prop}
  {c n : Node Source Value}

theorem Everywhere.here (h : n.Everywhere P) : P n.header n.children := by
  cases h with
  | node hhere _ => exact hhere

theorem Everywhere.of_mem (h : n.Everywhere P) (hc : c ∈ n.children) : c.Everywhere P := by
  cases h with
  | node _ hbelow => exact hbelow c hc

theorem Everywhere.of_at? {t : Node Source Value} (h : t.Everywhere P) {path : List String}
    (hat : t.at? path = some n) : n.Everywhere P :=
  inherited_at? (fun _ hm _ => hm.of_mem) h hat

/-- With distinct names, every node is found at some path. -/
theorem NamesDistinct.everywhere_iff {t : Node Source Value} (ht : t.NamesDistinct) :
    t.Everywhere P ↔ ∀ path m, t.at? path = some m → P m.header m.children := by
  constructor
  · intro h path m hat
    exact (h.of_at? hat).here
  · intro hall
    induction ht with
    | @node h children hnodup hchildren ih =>
        refine .node (hall [] _ rfl) fun c hc => ih c hc fun path m hat => hall (c.name :: path) m ?_
        have hchild : child? ⟨h, children⟩ c.name = some c :=
          (NamesDistinct.node hnodup hchildren).child?_eq_some_iff.mpr ⟨hc, rfl⟩
        rw [at?, hchild, Option.bind_some, hat]

theorem Everywhere.mono (h : n.Everywhere P) (hPQ : ∀ h children, P h children → Q h children) :
    n.Everywhere Q := by
  induction h with
  | node hhere _ ih => exact .node (hPQ _ _ hhere) ih

theorem eq_or_mem_of_mem_put {m : Node Source Value} {ms : List (Node Source Value)}
    (h : c ∈ put m ms) : c = m ∨ c ∈ ms := by
  induction ms with
  | nil => exact .inl (List.mem_singleton.mp h)
  | cons first ms ih =>
      rw [put] at h
      split_ifs at h
      · rcases List.mem_cons.mp h with rfl | hmem
        · exact .inl rfl
        · exact .inr (.tail _ hmem)
      · exact List.mem_cons.mp h
      · rcases List.mem_cons.mp h with rfl | hmem
        · exact .inr List.mem_cons_self
        · exact (ih hmem).imp_right (.tail _)

theorem Everywhere.addAllTo_of_forall {cs : List (Node Source Value)}
    (hcs : ∀ c ∈ cs, ∀ parent : Node Source Value, parent.Everywhere P → (c.addTo parent).Everywhere P)
    {parent : Node Source Value} (hparent : parent.Everywhere P) :
    (addAllTo cs parent).Everywhere P := by
  induction cs generalizing parent with
  | nil => exact hparent
  | cons c cs ih =>
      rw [addAllTo]
      exact ih (fun d hd => hcs d (.tail _ hd)) (hcs c List.mem_cons_self parent hparent)

variable (hput : ∀ (h : NodeHeader Source Value) (m : Node Source Value)
  (ms : List (Node Source Value)), P h ms → P h (put m ms))
include hput

theorem Everywhere.addTo (hc : c.Everywhere P) {parent : Node Source Value}
    (hparent : parent.Everywhere P) : (c.addTo parent).Everywhere P := by
  induction hc generalizing parent with
  | @node h children hhere hbelow ih =>
      have hjoined : (parent.joined ⟨h, children⟩).Everywhere P := by
        cases hold : parent.child? (name ⟨h, children⟩) with
        | none =>
            rw [joined_of_child?_eq_none hold]
            exact .node hhere hbelow
        | some old =>
            cases hkind : parent.isLiteral with
            | true =>
                rw [joined_of_isLiteral _ hkind]
                exact .node hhere hbelow
            | false =>
                rw [joined_of_isLiteral_eq_false hkind hold]
                have hkept := hparent.of_mem (mem_children_of_child? hold)
                exact addAllTo_of_forall (fun d hd _ hp => ih d hd hp) hkept
      rw [addTo_eq]
      refine .node (hput _ _ _ hparent.here) fun d hd => ?_
      rcases eq_or_mem_of_mem_put hd with rfl | hmem
      · exact hjoined
      · exact hparent.of_mem hmem

theorem Everywhere.build {h : NodeHeader Source Value} {cs : List (Node Source Value)}
    (hhere : P h []) (hcs : ∀ c ∈ cs, c.Everywhere P) : (build h cs).Everywhere P :=
  addAllTo_of_forall (fun c hc _ hparent => (hcs c hc).addTo hput hparent)
    (.node hhere fun c hc => by cases hc)

end Everywhere

/-! ### Ascending names -/

/-- Children are listed by name, and no two of them share one. -/
def Ascending (children : List (Node Source Value)) : Prop :=
  children.Pairwise fun c d => c.name < d.name

theorem ascending_put (n : Node Source Value) {ms : List (Node Source Value)} (h : Ascending ms) :
    Ascending (put n ms) := by
  induction ms with
  | nil => exact List.pairwise_singleton _ n
  | cons m ms ih =>
      obtain ⟨hfirst, hrest⟩ := List.pairwise_cons.mp h
      rcases lt_trichotomy n.name m.name with hlt | heq | hgt
      · rw [put_cons_of_lt ms hlt]
        refine List.pairwise_cons.mpr ⟨fun c hc => ?_, h⟩
        rcases List.mem_cons.mp hc with rfl | hmem
        · exact hlt
        · exact hlt.trans (hfirst c hmem)
      · rw [put_cons_of_eq ms heq]
        exact List.pairwise_cons.mpr ⟨fun c hc => heq ▸ hfirst c hc, hrest⟩
      · rw [put_cons_of_gt ms hgt]
        refine List.pairwise_cons.mpr ⟨fun c hc => ?_, ih hrest⟩
        rcases eq_or_mem_of_mem_put hc with rfl | hmem
        · exact hgt
        · exact hfirst c hmem

/-- A child is put where it stands already. -/
theorem put_of_mem {n : Node Source Value} {ms : List (Node Source Value)} (h : Ascending ms)
    (hmem : n ∈ ms) : put n ms = ms := by
  induction ms with
  | nil => cases hmem
  | cons m ms ih =>
      obtain ⟨hfirst, hrest⟩ := List.pairwise_cons.mp h
      rcases List.mem_cons.mp hmem with rfl | hmem
      · exact put_cons_of_eq ms rfl
      · rw [put_cons_of_gt ms (hfirst n hmem), ih hrest hmem]

theorem Ascending.nodup {children : List (Node Source Value)} (h : Ascending children) :
    (children.map name).Nodup :=
  List.pairwise_map.mpr (h.imp fun hlt => ne_of_lt hlt)

theorem Everywhere.namesDistinct {n : Node Source Value}
    (h : n.Everywhere fun _ children => Ascending children) : n.NamesDistinct := by
  induction h with
  | node hhere _ ih => exact .node hhere.nodup ih

/-- A node is determined by its header and by what the names find below it. -/
theorem eq_of_child? {m n : Node Source Value} (hm : Ascending m.children)
    (hn : Ascending n.children) (hheader : m.header = n.header)
    (hchild : ∀ name, m.child? name = n.child? name) : m = n := by
  obtain ⟨h, ms⟩ := m
  obtain ⟨h', ns⟩ := n
  obtain rfl : h = h' := hheader
  have hantisymm : Std.Antisymm fun c d : Node Source Value => c.name < d.name :=
    ⟨fun c d hcd hdc => absurd hdc (lt_asymm hcd)⟩
  have hirrefl : Std.Irrefl fun c d : Node Source Value => c.name < d.name :=
    ⟨fun c => lt_irrefl c.name⟩
  have hmem : ∀ c, c ∈ ms ↔ c ∈ ns := by
    intro c
    have hsome : child? ⟨h, ms⟩ c.name = some c ↔ child? ⟨h, ns⟩ c.name = some c := by
      rw [hchild]
    simpa [child?, Text.find?_key_eq_some_iff hm.nodup, Text.find?_key_eq_some_iff hn.nodup]
      using hsome
  exact congrArg (mk h) (List.Pairwise.eq_of_mem_iff hm hn hmem)

end CommandGrammar.Node
