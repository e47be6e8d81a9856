import Mathlib.Logic.Relation
import Mathlib.Data.List.Basic
import Mathlib.Order.WellFounded

/-!
# Forests and their rendering

A forest over any type of names: every node has a list of children without
repetitions, no node has two parents, and no branch goes down for ever. `Desc`
is "the same or below". The subtrees of two siblings, and those of two roots,
have no node in common.

`render` is the text of a node: a leaf has its own, any other node its head
followed by the texts of its enabled children, each but the last with its
separator (`joinSep`).
-/

namespace ConFuzz.Config

variable {ι : Type}

structure Forest (ι : Type) where
  child : ι → List ι
  nodup : ∀ p, (child p).Nodup
  parent_unique : ∀ p q c, c ∈ child p → c ∈ child q → p = q
  wf : WellFounded fun c p => c ∈ child p

variable {F : Forest ι} {a b c i j p : ι}

/-- `j` is `i` or below it. -/
def Forest.Desc (F : Forest ι) : ι → ι → Prop := Relation.ReflTransGen fun p c => c ∈ F.child p

def Forest.IsRoot (F : Forest ι) (i : ι) : Prop := ∀ p, i ∉ F.child p

theorem Forest.Desc.refl : F.Desc i i := Relation.ReflTransGen.refl

theorem Forest.Desc.of_child (hc : c ∈ F.child p) (h : F.Desc c j) : F.Desc p j :=
  Relation.ReflTransGen.head hc h

theorem Forest.Desc.to_child (h : F.Desc i p) (hc : c ∈ F.child p) : F.Desc i c :=
  Relation.ReflTransGen.tail h hc

theorem Forest.Desc.cases_child (h : F.Desc i j) : j = i ∨ ∃ c ∈ F.child i, F.Desc c j := by
  rcases Relation.ReflTransGen.cases_head h with rfl | ⟨c, hc, h⟩
  · exact .inl rfl
  · exact .inr ⟨c, hc, h⟩

theorem Forest.not_desc_parent (hc : c ∈ F.child p) : ¬ F.Desc c p := by
  intro h
  have hloop : Relation.TransGen (fun c p => c ∈ F.child p) p p :=
    Relation.transGen_swap.1 (Relation.TransGen.head' hc h)
  exact F.wf.transGen.irrefl.irrefl p hloop

theorem Forest.Desc.comparable (ha : F.Desc a j) (hb : F.Desc b j) : F.Desc a b ∨ F.Desc b a := by
  have hu : Relator.RightUnique (Function.swap fun p c => c ∈ F.child p) :=
    fun c p q hp hq => F.parent_unique p q c hp hq
  rcases (Relation.reflTransGen_swap.2 ha).total_of_right_unique hu
    (Relation.reflTransGen_swap.2 hb) with h | h
  · exact .inr (Relation.reflTransGen_swap.1 h)
  · exact .inl (Relation.reflTransGen_swap.1 h)

theorem Forest.eq_of_desc_sibling (ha : a ∈ F.child p) (hb : b ∈ F.child p) (h : F.Desc a b) :
    a = b := by
  rcases Relation.ReflTransGen.cases_tail h with h | ⟨q, hq, hbq⟩
  · exact h.symm
  · have hqp : q = p := F.parent_unique q p b hbq hb
    subst hqp
    exact absurd hq (F.not_desc_parent ha)

theorem Forest.sibling_disjoint (ha : a ∈ F.child p) (hb : b ∈ F.child p) (hab : a ≠ b)
    (hj : F.Desc a j) : ¬ F.Desc b j := by
  intro hj'
  rcases hj.comparable hj' with h | h
  · exact hab (F.eq_of_desc_sibling ha hb h)
  · exact hab (F.eq_of_desc_sibling hb ha h).symm

theorem Forest.IsRoot.eq_of_desc (hb : F.IsRoot b) (h : F.Desc a b) : a = b := by
  rcases Relation.ReflTransGen.cases_tail h with h | ⟨q, -, hq⟩
  · exact h.symm
  · exact absurd hq (hb q)

theorem Forest.IsRoot.disjoint (ha : F.IsRoot a) (hb : F.IsRoot b) (hab : a ≠ b)
    (hj : F.Desc a j) : ¬ F.Desc b j := by
  intro hj'
  rcases hj.comparable hj' with h | h
  · exact hab (hb.eq_of_desc h)
  · exact hab (ha.eq_of_desc h).symm

/-! ## Rendering -/

section Render

variable {α β : Type}

/-- The texts of a list, each but the last followed by its separator. -/
def joinSep (text sep : α → String) : List α → String
  | [] => ""
  | [a] => text a
  | a :: b :: l => text a ++ sep a ++ joinSep text sep (b :: l)

theorem joinSep_map (text sep : α → String) (f : β → α) : ∀ l : List β,
    joinSep text sep (l.map f) = joinSep (fun b => text (f b)) (fun b => sep (f b)) l
  | [] => rfl
  | [_] => rfl
  | b :: c :: l => by
    have ih := joinSep_map text sep f (c :: l)
    rw [List.map_cons] at ih
    simp only [List.map_cons, joinSep, ih]

theorem joinSep_congr {text text' sep sep' : α → String} : ∀ {l : List α},
    (∀ a ∈ l, text a = text' a ∧ sep a = sep' a) → joinSep text sep l = joinSep text' sep' l
  | [], _ => rfl
  | [a], h => (h a List.mem_cons_self).1
  | a :: b :: l, h => by
    obtain ⟨ht, hs⟩ := h a List.mem_cons_self
    simp only [joinSep]
    rw [ht, hs, joinSep_congr fun x hx => h x (List.mem_cons_of_mem a hx)]

structure Texts (ι : Type) where
  on : ι → Bool
  head : ι → String
  leaf : ι → String
  sep : ι → String

def Forest.render (F : Forest ι) (T : Texts ι) : ι → String :=
  F.wf.fix fun i rec =>
    if F.child i = [] then T.leaf i
    else T.head i ++ joinSep (fun c : { c // c ∈ F.child i } => rec c.1 c.2) (fun c => T.sep c.1)
      ((F.child i).attach.filter fun c => T.on c.1)

theorem Forest.render_leaf {T : Texts ι} (h : F.child i = []) : F.render T i = T.leaf i := by
  unfold Forest.render
  rw [WellFounded.fix_eq, if_pos h]

theorem Forest.render_node {T : Texts ι} (h : F.child i ≠ []) :
    F.render T i = T.head i ++ joinSep (F.render T) T.sep ((F.child i).filter T.on) := by
  have hfilter : ((F.child i).attach.filter fun c => T.on c.1).map Subtype.val =
      (F.child i).filter T.on := by
    have h := List.filter_map (f := Subtype.val) (p := T.on) (l := (F.child i).attach)
    rw [List.attach_map_subtype_val] at h
    exact h.symm
  rw [← hfilter, joinSep_map]
  unfold Forest.render
  rw [WellFounded.fix_eq, if_neg h]

theorem Forest.render_congr {T T' : Texts ι}
    (h : ∀ j, F.Desc i j → T.on j = T'.on j ∧ T.head j = T'.head j ∧ T.leaf j = T'.leaf j ∧
      T.sep j = T'.sep j) : F.render T i = F.render T' i := by
  induction i using F.wf.induction with
  | _ i ih =>
    obtain ⟨-, hhead, hleaf, -⟩ := h i .refl
    by_cases hc : F.child i = []
    · rw [F.render_leaf hc, F.render_leaf hc, hleaf]
    · rw [F.render_node hc, F.render_node hc, hhead]
      have hon : (F.child i).filter T.on = (F.child i).filter T'.on :=
        List.filter_congr fun c hcm => (h c (.of_child hcm .refl)).1
      rw [hon]
      refine congrArg _ (joinSep_congr fun c hcm => ?_)
      have hc : c ∈ F.child i := (List.mem_filter.1 hcm).1
      exact ⟨ih c hc fun j hj => h j (.of_child hc hj), (h c (.of_child hc .refl)).2.2.2⟩

/-- The text of a node depends on its own text and on the nodes below it that are on. -/
theorem Forest.render_congr_on {T T' : Texts ι} (hleaf : T.leaf i = T'.leaf i)
    (h : ∀ j, F.Desc i j → T.on j = T'.on j ∧ T.head j = T'.head j ∧ T.sep j = T'.sep j ∧
      (T.on j = true → T.leaf j = T'.leaf j)) : F.render T i = F.render T' i := by
  induction i using F.wf.induction with
  | _ i ih =>
    obtain ⟨-, hhead, -⟩ := h i .refl
    by_cases hc : F.child i = []
    · rw [F.render_leaf hc, F.render_leaf hc, hleaf]
    · rw [F.render_node hc, F.render_node hc, hhead]
      have hon : (F.child i).filter T.on = (F.child i).filter T'.on :=
        List.filter_congr fun c hcm => (h c (.of_child hcm .refl)).1
      rw [← hon]
      refine congrArg _ (joinSep_congr fun c hcm => ?_)
      obtain ⟨hc, hcon⟩ := List.mem_filter.1 hcm
      obtain ⟨-, -, hsep, hcl⟩ := h c (.of_child hc .refl)
      exact ⟨ih c hc (hcl hcon) fun j hj => h j (.of_child hc hj), hsep⟩

end Render

end ConFuzz.Config
