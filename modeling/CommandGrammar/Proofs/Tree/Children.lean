import CommandGrammar.Proofs.Text.Sorting
import CommandGrammar.Tree.Node
import Mathlib.Data.List.Perm.Basic
import Mathlib.Data.String.Basic

/-!
# One more child

Adding a child touches one place: the one that belongs to the name of the child. Which node stands
there afterwards is `joined`, and `child?_addTo` says that every other name is answered as before.
-/

namespace CommandGrammar.Node

variable {Source Value : Type}

/-! ### Children by name -/

theorem name_eq_of_child? {n c : Node Source Value} {name : String} (h : n.child? name = some c) :
    c.name = name := by
  have hname := List.find?_some h
  simpa using hname

theorem mem_children_of_child? {n c : Node Source Value} {name : String}
    (h : n.child? name = some c) : c ∈ n.children :=
  List.mem_of_find?_eq_some h

section Put

variable {m n : Node Source Value} (ms : List (Node Source Value))

theorem put_cons_of_eq (h : n.name = m.name) : put n (m :: ms) = n :: ms := by
  rw [put, if_pos h]

theorem put_cons_of_lt (h : n.name < m.name) : put n (m :: ms) = n :: m :: ms := by
  rw [put, if_neg (ne_of_lt h), if_pos h]

theorem put_cons_of_gt (h : m.name < n.name) : put n (m :: ms) = m :: put n ms := by
  rw [put, if_neg (ne_of_gt h), if_neg (lt_asymm h)]

/-- Looking a name up after `put` meets the node that was put, or what was there before. -/
theorem find?_put (n : Node Source Value) (name : String) :
    (put n ms).find? (fun c => c.name == name)
      = if n.name = name then some n else ms.find? fun c => c.name == name := by
  induction ms with
  | nil => by_cases hname : n.name = name <;> simp [put, hname]
  | cons m ms ih =>
      rcases lt_trichotomy n.name m.name with hlt | heq | hgt
      · rw [put_cons_of_lt ms hlt]
        by_cases hname : n.name = name <;> simp [hname]
      · rw [put_cons_of_eq ms heq]
        by_cases hname : n.name = name
        · simp [hname]
        · simp [hname, ← heq]
      · rw [put_cons_of_gt ms hgt, List.find?_cons, ih, List.find?_cons]
        by_cases hname : n.name = name
        · have hm : (m.name == name) = false := beq_false_of_ne (hname ▸ ne_of_lt hgt)
          rw [hm]
        · rw [if_neg hname, if_neg hname]

theorem put_comm_of_lt (h : m.name < n.name) : put m (put n ms) = put n (put m ms) := by
  induction ms with
  | nil =>
      change put m [n] = put n [m]
      rw [put_cons_of_lt [] h, put_cons_of_gt [] h]
      rfl
  | cons c ms ih =>
      rcases lt_trichotomy n.name c.name with hnc | hnc | hnc
      · rw [put_cons_of_lt ms hnc, put_cons_of_lt _ h, put_cons_of_lt ms (h.trans hnc),
          put_cons_of_gt _ h, put_cons_of_lt ms hnc]
      · rw [put_cons_of_eq ms hnc, put_cons_of_lt ms h, put_cons_of_lt ms (hnc ▸ h),
          put_cons_of_gt _ h, put_cons_of_eq ms hnc]
      · rw [put_cons_of_gt ms hnc]
        rcases lt_trichotomy m.name c.name with hmc | hmc | hmc
        · rw [put_cons_of_lt _ hmc, put_cons_of_lt ms hmc, put_cons_of_gt _ h,
            put_cons_of_gt ms hnc]
        · rw [put_cons_of_eq _ hmc, put_cons_of_eq ms hmc, put_cons_of_gt ms h]
        · rw [put_cons_of_gt _ hmc, put_cons_of_gt ms hmc, put_cons_of_gt _ hnc, ih]

/-- Of two nodes of one name the one that is put last stays. -/
theorem put_put_of_name_eq (h : m.name = n.name) : put n (put m ms) = put n ms := by
  induction ms with
  | nil => exact put_cons_of_eq [] h.symm
  | cons c ms ih =>
      rcases lt_trichotomy n.name c.name with hlt | heq | hgt
      · rw [put_cons_of_lt ms (h ▸ hlt), put_cons_of_lt ms hlt, put_cons_of_eq _ h.symm]
      · rw [put_cons_of_eq ms (h.trans heq), put_cons_of_eq ms heq, put_cons_of_eq ms h.symm]
      · rw [put_cons_of_gt ms (h ▸ hgt), put_cons_of_gt ms hgt, put_cons_of_gt _ hgt, ih]

/-- A node of a new name is put among the others, and they stay. -/
theorem put_perm_of_forall_ne (h : ∀ m ∈ ms, m.name ≠ n.name) : (put n ms).Perm (n :: ms) := by
  induction ms with
  | nil => exact .refl _
  | cons c ms ih =>
      obtain ⟨hfirst, hrest⟩ := List.forall_mem_cons.mp h
      rcases lt_or_gt_of_ne hfirst with hlt | hgt
      · rw [put_cons_of_gt ms hlt]
        exact ((ih hrest).cons c).trans (.swap n c ms)
      · rw [put_cons_of_lt ms hgt]

/-- Nodes of different names may be put in either order. -/
theorem put_comm (hne : m.name ≠ n.name) : put m (put n ms) = put n (put m ms) := by
  rcases lt_or_gt_of_ne hne with hlt | hgt
  · exact put_comm_of_lt ms hlt
  · exact (put_comm_of_lt ms hgt).symm

end Put

/-! ### What stands under the name of a new child -/

/-- The child that `parent` has under the name of `c` once `c` is added to it. -/
def joined (parent c : Node Source Value) : Node Source Value :=
  match parent.header.kind, parent.child? c.name with
  | .argument _, some old => addAllTo c.children old
  | _, _ => c

theorem addTo_eq (c parent : Node Source Value) :
    c.addTo parent = ⟨parent.header, put (parent.joined c) parent.children⟩ := by
  obtain ⟨h, children⟩ := c
  rw [addTo, joined]
  cases hkind : parent.header.kind with
  | literal caseSensitive => rfl
  | argument parser =>
      cases hold : parent.child? h.name with
      | none => simp [name, hold]
      | some old => simp [name, hold]

@[simp]
theorem header_addTo (c parent : Node Source Value) : (c.addTo parent).header = parent.header := by
  rw [addTo_eq]

@[simp]
theorem header_addAllTo (cs : List (Node Source Value)) (parent : Node Source Value) :
    (addAllTo cs parent).header = parent.header := by
  induction cs generalizing parent with
  | nil => rfl
  | cons c cs ih => rw [addAllTo, ih, header_addTo]

@[simp]
theorem name_addAllTo (cs : List (Node Source Value)) (parent : Node Source Value) :
    (addAllTo cs parent).name = parent.name := by
  rw [name, header_addAllTo, name]

theorem isLiteral_addTo (c parent : Node Source Value) :
    (c.addTo parent).isLiteral = parent.isLiteral := by
  rw [isLiteral, header_addTo, isLiteral]

theorem isLiteral_addAllTo (cs : List (Node Source Value)) (parent : Node Source Value) :
    (addAllTo cs parent).isLiteral = parent.isLiteral := by
  rw [isLiteral, header_addAllTo, isLiteral]

/-- A literal parent takes the new child as it is. -/
theorem joined_of_isLiteral {parent : Node Source Value} (c : Node Source Value)
    (h : parent.isLiteral = true) : parent.joined c = c := by
  unfold isLiteral at h
  unfold joined
  cases hkind : parent.header.kind with
  | literal caseSensitive => rfl
  | argument parser => simp [hkind, NodeKind.isLiteral] at h

/-- So does any parent that has no child of the name. -/
theorem joined_of_child?_eq_none {parent c : Node Source Value} (h : parent.child? c.name = none) :
    parent.joined c = c := by
  unfold joined
  rw [h]
  cases parent.header.kind <;> rfl

/-- An argument parent keeps the child that it has and adds to it what is below the new one. -/
theorem joined_of_isLiteral_eq_false {parent c old : Node Source Value}
    (hkind : parent.isLiteral = false) (hold : parent.child? c.name = some old) :
    parent.joined c = addAllTo c.children old := by
  unfold isLiteral at hkind
  unfold joined
  rw [hold]
  cases h : parent.header.kind with
  | literal caseSensitive => simp [h, NodeKind.isLiteral] at hkind
  | argument parser => rfl

@[simp]
theorem name_joined (parent c : Node Source Value) : (parent.joined c).name = c.name := by
  cases hold : parent.child? c.name with
  | none => rw [joined_of_child?_eq_none hold]
  | some old =>
      cases hkind : parent.isLiteral with
      | true => rw [joined_of_isLiteral c hkind]
      | false =>
          rw [joined_of_isLiteral_eq_false hkind hold, name_addAllTo, name_eq_of_child? hold]

/-- A new child changes what its own name finds and nothing else. -/
theorem child?_addTo (c parent : Node Source Value) (name : String) :
    (c.addTo parent).child? name
      = if c.name = name then some (parent.joined c) else parent.child? name := by
  rw [addTo_eq, child?, find?_put, name_joined]
  rfl

/-- In an argument, the second of two children of one name is merged into what the first has
become. -/
theorem addTo_addTo_of_isLiteral_eq_false {parent c d : Node Source Value}
    (hkind : parent.isLiteral = false) (hname : d.name = c.name) :
    d.addTo (c.addTo parent)
      = ⟨parent.header, put (addAllTo d.children (parent.joined c)) parent.children⟩ := by
  have hadded : (c.addTo parent).isLiteral = false := (isLiteral_addTo c parent).trans hkind
  have hold : (c.addTo parent).child? d.name = some (parent.joined c) := by
    rw [child?_addTo, if_pos hname.symm]
  have hmerged : (parent.joined c).name = (addAllTo d.children (parent.joined c)).name := by
    rw [name_addAllTo]
  rw [addTo_eq d, joined_of_isLiteral_eq_false hadded hold, addTo_eq c,
    put_put_of_name_eq parent.children hmerged]

/-- What stands under a name depends on the kind of the parent and its child of that name only. -/
theorem joined_congr {p q c : Node Source Value} (hheader : p.header = q.header)
    (hchild : p.child? c.name = q.child? c.name) : p.joined c = q.joined c := by
  unfold joined
  rw [hheader, hchild]

theorem joined_addTo {c d : Node Source Value} (parent : Node Source Value)
    (hne : c.name ≠ d.name) : (c.addTo parent).joined d = parent.joined d := by
  apply joined_congr
  · exact header_addTo c parent
  · rw [child?_addTo, if_neg hne]

/-- Children of different names may be added in either order. -/
theorem addTo_comm {c d : Node Source Value} (parent : Node Source Value)
    (hne : c.name ≠ d.name) : c.addTo (d.addTo parent) = d.addTo (c.addTo parent) := by
  rw [addTo_eq c (d.addTo parent), addTo_eq d (c.addTo parent), joined_addTo parent hne,
    joined_addTo parent hne.symm, addTo_eq d parent, addTo_eq c parent]
  have hput : (parent.joined c).name ≠ (parent.joined d).name := by
    rwa [name_joined, name_joined]
  rw [put_comm parent.children hput]

/-! ### Several children -/

theorem addAllTo_eq_foldl (cs : List (Node Source Value)) (parent : Node Source Value) :
    addAllTo cs parent = cs.foldl addChild parent := by
  induction cs generalizing parent with
  | nil => rfl
  | cons c cs ih => rw [addAllTo, ih, List.foldl_cons, addChild]

theorem addAllTo_append (cs ds : List (Node Source Value)) (parent : Node Source Value) :
    addAllTo (cs ++ ds) parent = addAllTo ds (addAllTo cs parent) := by
  rw [addAllTo_eq_foldl, addAllTo_eq_foldl, addAllTo_eq_foldl, List.foldl_append]

/-- A child of another name may be added before all or after all. -/
theorem addAllTo_addTo_comm {c : Node Source Value} {cs : List (Node Source Value)}
    (hne : ∀ d ∈ cs, d.name ≠ c.name) (parent : Node Source Value) :
    addAllTo cs (c.addTo parent) = c.addTo (addAllTo cs parent) := by
  induction cs generalizing parent with
  | nil => rfl
  | cons d cs ih =>
      obtain ⟨hfirst, hrest⟩ := List.forall_mem_cons.mp hne
      rw [addAllTo, addAllTo, addTo_comm parent hfirst, ih hrest]

theorem child?_addAllTo_of_forall_ne {name : String} {cs : List (Node Source Value)}
    (hne : ∀ d ∈ cs, d.name ≠ name) (parent : Node Source Value) :
    (addAllTo cs parent).child? name = parent.child? name := by
  induction cs generalizing parent with
  | nil => rfl
  | cons d cs ih =>
      obtain ⟨hfirst, hrest⟩ := List.forall_mem_cons.mp hne
      rw [addAllTo, ih hrest, child?_addTo, if_neg hfirst]

/-- Children of pairwise different names are each found as if they had been added alone. -/
theorem child?_addAllTo {cs : List (Node Source Value)} (hnodup : (cs.map name).Nodup)
    (parent : Node Source Value) (name : String) :
    (addAllTo cs parent).child? name
      = ((cs.find? fun c => c.name == name).map parent.joined).or (parent.child? name) := by
  induction cs generalizing parent with
  | nil => rfl
  | cons c cs ih =>
      rw [List.map_cons, List.nodup_cons] at hnodup
      obtain ⟨hnew, hnodup⟩ := hnodup
      rw [addAllTo, ih hnodup, child?_addTo, List.find?_cons]
      by_cases hname : c.name = name
      · have hnone : (cs.find? fun d => d.name == name) = none := by
          rw [List.find?_eq_none]
          intro d hd heq
          apply hnew
          rw [hname, ← beq_iff_eq.mp heq]
          exact List.mem_map_of_mem hd
        simp [hname, hnone]
      · rw [if_neg hname, beq_false_of_ne hname]
        cases hfound : cs.find? fun d => d.name == name with
        | none => rfl
        | some d =>
            have hd : d.name = name := by simpa using List.find?_some hfound
            rw [Option.map_some, Option.map_some, joined_addTo parent (hd ▸ hname)]

/-- A node that is built has the children it was given, if they are of different names. -/
theorem child?_build {cs : List (Node Source Value)} (hnodup : (cs.map name).Nodup)
    (h : NodeHeader Source Value) (name : String) :
    (build h cs).child? name = cs.find? fun c => c.name == name := by
  have hfree : ∀ c ∈ cs, joined ⟨h, []⟩ c = c := fun c _ => joined_of_child?_eq_none rfl
  rw [build, child?_addAllTo hnodup]
  cases hfound : cs.find? fun c => c.name == name with
  | none => rfl
  | some c => rw [Option.map_some, hfree c (List.mem_of_find?_eq_some hfound), Option.some_or]

/-- Children of new and different names are all listed, next to those that were there. -/
theorem children_addAllTo_perm {cs : List (Node Source Value)} {parent : Node Source Value}
    (hnodup : ((cs ++ parent.children).map name).Nodup) :
    (addAllTo cs parent).children.Perm (cs ++ parent.children) := by
  induction cs generalizing parent with
  | nil => exact .refl _
  | cons c cs ih =>
      rw [List.cons_append, List.map_cons, List.nodup_cons] at hnodup
      obtain ⟨hnew, hnodup⟩ := hnodup
      have hne : ∀ d ∈ parent.children, d.name ≠ c.name := by
        intro d hd heq
        exact hnew (heq ▸ List.mem_map_of_mem (List.mem_append_right cs hd))
      have hfree : parent.child? c.name = none := by
        rw [child?, List.find?_eq_none]
        intro d hd
        simpa using hne d hd
      have hadded : (c.addTo parent).children.Perm (c :: parent.children) := by
        rw [addTo_eq, joined_of_child?_eq_none hfree]
        exact put_perm_of_forall_ne parent.children hne
      have hall : (cs ++ (c.addTo parent).children).Perm (c :: (cs ++ parent.children)) :=
        (hadded.append_left cs).trans List.perm_middle
      rw [addAllTo]
      refine (ih ?_).trans hall
      rw [(hall.map name).nodup_iff, List.map_cons, List.nodup_cons]
      exact ⟨hnew, hnodup⟩

theorem children_build_perm {cs : List (Node Source Value)} (hnodup : (cs.map name).Nodup)
    (h : NodeHeader Source Value) : (build h cs).children.Perm cs := by
  have hall := @children_addAllTo_perm Source Value cs ⟨h, []⟩ (by rwa [List.append_nil])
  rwa [List.append_nil] at hall

/-! ### Distinct names -/

/-- No two children of a node have the same name, at any depth. -/
inductive NamesDistinct : Node Source Value → Prop where
  | node {h : NodeHeader Source Value} {children : List (Node Source Value)}
      (hnodup : (children.map name).Nodup) (hchildren : ∀ c ∈ children, NamesDistinct c) :
      NamesDistinct ⟨h, children⟩

theorem namesDistinct_leaf (h : NodeHeader Source Value) : NamesDistinct ⟨h, []⟩ :=
  .node List.nodup_nil fun c hc => by cases hc

theorem NamesDistinct.nodup {n : Node Source Value} (h : n.NamesDistinct) :
    (n.children.map name).Nodup := by
  cases h with
  | node hnodup _ => exact hnodup

theorem NamesDistinct.of_mem {n c : Node Source Value} (h : n.NamesDistinct)
    (hc : c ∈ n.children) : c.NamesDistinct := by
  cases h with
  | node _ hchildren => exact hchildren c hc

theorem NamesDistinct.child?_eq_some_iff {n c : Node Source Value} (h : n.NamesDistinct)
    {name : String} : n.child? name = some c ↔ c ∈ n.children ∧ c.name = name :=
  Text.find?_key_eq_some_iff h.nodup

end CommandGrammar.Node
