import ConFuzz.Config.Forest
import ConFuzz.Emit.Steps

/-!
# The command is the rendering of the enabled forest

When the child lists of a table form a forest, `branch_generate` writes the
rendering of the enabled part of a tree, whatever the nesting: although it
works on shared state, a call changes nothing but the nodes of its own subtree,
and the subtrees of siblings are disjoint.
-/

namespace ConFuzz

open ConFuzz.CLib ConFuzz.Config

/-- The children of a table form a forest numbered from the roots down, and every child
has a dependency. -/
structure ForestTable (t : List ArgNode) : Prop where
  child_in : ∀ p c, c ∈ (graphOf t).child p → InTable t c
  child_above : ∀ p c, c ∈ (graphOf t).child p → p < c
  parent_unique : ∀ p q c, c ∈ (graphOf t).child p → c ∈ (graphOf t).child q → p = q
  nodup : ∀ p, ((graphOf t).child p).Nodup
  child_dep : ∀ p c, c ∈ (graphOf t).child p → (graphOf t).dep c ≠ []

theorem ForestTable.wf {t : List ArgNode} (hF : ForestTable t) :
    WellFounded fun c p => c ∈ (graphOf t).child p := by
  refine Subrelation.wf (r := InvImage (· < ·) fun i : Int => (t.length - i).toNat) ?_
    (InvImage.wf _ Nat.lt_wfRel.wf)
  intro c p hc
  have h1 := hF.child_above p c hc
  have h2 := (hF.child_in p c hc).2
  show ((t.length : Int) - c).toNat < ((t.length : Int) - p).toNat
  omega

def ForestTable.forest {t : List ArgNode} (hF : ForestTable t) : Forest Int where
  child := (graphOf t).child
  nodup := hF.nodup
  parent_unique := hF.parent_unique
  wf := hF.wf

/-- The texts of the nodes of a table: the head of a node with children, the text of a
leaf with its value, and the separator. -/
def textsOf (t : List ArgNode) (ir : List Ir) : Texts Int where
  on i := On ir i
  head i := ((at? t i).map fun node => node.arg ++ operatorText node.operatorChild).getD ""
  leaf i := ((at? t i).bind fun node => (at? ir i).map fun cell =>
    node.arg ++ operatorText node.operatorValue ++ valueText node cell).getD ""
  sep i := ((at? t i).map siblingText).getD ""

section

variable {t : List ArgNode} {stale : Int → Int} {hF : ForestTable t} {ir ir' : List Ir} {i : Int}

theorem on_congr (h : at? ir' i = at? ir i) : On ir' i ↔ On ir i := by
  unfold On enableOf
  rw [h]

theorem render_textsOf_congr (h : ∀ j, hF.forest.Desc i j → at? ir' j = at? ir j) :
    hF.forest.render (textsOf t ir') i = hF.forest.render (textsOf t ir) i := by
  refine Forest.render_congr fun j hj => ⟨?_, rfl, ?_, rfl⟩
  · exact decide_eq_decide.2 (on_congr (h j hj))
  · simp only [textsOf, h j hj]

theorem filter_on_congr {cs : List Int} (h : ∀ c ∈ cs, at? ir' c = at? ir c) :
    cs.filter (textsOf t ir').on = cs.filter (textsOf t ir).on :=
  List.filter_congr fun c hc => decide_eq_decide.2 (on_congr (h c hc))

theorem joinOn_congr {cs : List Int}
    (h : ∀ c ∈ cs, ∀ j, hF.forest.Desc c j → at? ir' j = at? ir j) :
    joinSep (hF.forest.render (textsOf t ir')) (textsOf t ir').sep
        (cs.filter (textsOf t ir').on) =
      joinSep (hF.forest.render (textsOf t ir)) (textsOf t ir).sep
        (cs.filter (textsOf t ir).on) := by
  rw [filter_on_congr fun c hc => h c hc c .refl]
  refine joinSep_congr fun c hc => ⟨?_, rfl⟩
  exact render_textsOf_congr (h c (List.mem_filter.1 hc).1)

/-- Below `i` a node that is on has a parent that is on. -/
def OnClosed (F : Forest Int) (ir : List Ir) (i : Int) : Prop :=
  ∀ p c, F.Desc i p → c ∈ F.child p → On ir c → On ir p

theorem OnClosed.off {F : Forest Int} (h : OnClosed F ir i) (hi : ¬ On ir i) {j : Int}
    (hj : F.Desc i j) : ¬ On ir j := by
  unfold Forest.Desc at hj
  induction hj with
  | refl => exact hi
  | tail hp hc ih => exact fun hon => ih (h _ _ hp hc hon)

theorem OnClosed.congr {F : Forest Int} (h : OnClosed F ir i)
    (he : ∀ j, F.Desc i j → at? ir' j = at? ir j) : OnClosed F ir' i := by
  intro p c hp hc hon
  rw [on_congr (he c (hp.to_child hc))] at hon
  rw [on_congr (he p hp)]
  exact h p c hp hc hon

/-! ## The last enabled child -/

theorem lastEnabled_eq : ∀ {l : List Int} {last r : Int}, lastEnabled ir l last = .ok r →
    r = ((l.filter fun c => On ir c).getLast?).getD last
  | [], last, r, h => by
    cases h
    rfl
  | c :: l, last, r, h => by
    obtain ⟨cell, hc, h⟩ := bind_eq_ok.1 h
    rw [rd_eq_ok] at hc
    have ih := lastEnabled_eq h
    have hon : On ir c ↔ cell.enable = 1 := by simp [On, enableOf, hc]
    by_cases h1 : cell.enable = 1
    · rw [if_pos h1] at ih
      rw [List.filter_cons_of_pos (by simpa using hon.2 h1), List.getLast?_cons, ih]
      rfl
    · rw [if_neg h1] at ih
      rw [List.filter_cons_of_neg (by simpa [hon] using h1), ih]

/-! ## One call -/

/-- What a call at `i` does to the marks: nothing outside the subtree, and nothing is left
on inside it. -/
structure Consumed (F : Forest Int) (i : Int) (ir ir' : List Ir) : Prop where
  frame : ∀ j, ¬ F.Desc i j → at? ir' j = at? ir j
  off : ∀ j, F.Desc i j → ¬ On ir' j

theorem Consumed.of_children {F : Forest Int} {i : Int} {ir ir' : List Ir} {cell : Ir}
    (hc : at? ir i = some cell)
    (hfr : ∀ j, (∀ c ∈ F.child i, ¬ F.Desc c j) →
      at? ir' j = at? (put ir i { cell with enable := 2 }) j)
    (hoff : ∀ c ∈ F.child i, ∀ j, F.Desc c j → ¬ On ir' j) : Consumed F i ir ir' := by
  refine ⟨fun j hj => ?_, fun j hj => ?_⟩
  · rw [hfr j fun c hcm hd => hj (.of_child hcm hd), at?_put _ hc, if_neg]
    rintro rfl
    exact hj .refl
  · rcases hj.cases_child with rfl | ⟨c, hcm, hd⟩
    · have hself : at? ir' j = some { cell with enable := 2 } := by
        rw [hfr j fun c hcm => F.not_desc_parent hcm, at?_put _ hc, if_pos rfl]
      intro hon
      simp [On, enableOf, hself] at hon
    · exact hoff c hcm j hd

theorem Consumed.of_off {F : Forest Int} {i : Int} {ir : List Ir} (hcl : OnClosed F ir i)
    (hoff : ¬ On ir i) : Consumed F i ir ir :=
  ⟨fun _ _ => rfl, fun _ hj => hcl.off hoff hj⟩

theorem Consumed.cons {F : Forest Int} {p c : Int} {cs : List Int} {ir ir1 ir2 : List Ir}
    (hsub : ∀ c' ∈ c :: cs, c' ∈ F.child p) (hnd : c ∉ cs) (h : Consumed F c ir ir1)
    (hfr : ∀ j, (∀ c' ∈ cs, ¬ F.Desc c' j) → at? ir2 j = at? ir1 j)
    (hoff : ∀ c' ∈ cs, ∀ j, F.Desc c' j → ¬ On ir2 j) :
    (∀ j, (∀ c' ∈ c :: cs, ¬ F.Desc c' j) → at? ir2 j = at? ir j) ∧
      ∀ c' ∈ c :: cs, ∀ j, F.Desc c' j → ¬ On ir2 j := by
  refine ⟨fun j hj => ?_, fun c' hc' j hj => ?_⟩
  · rw [hfr j fun c' hc' => hj c' (List.mem_cons_of_mem c hc')]
    exact h.frame j (hj c List.mem_cons_self)
  · rcases List.mem_cons.1 hc' with rfl | hc'
    · rw [on_congr (hfr j fun c'' hc'' => F.sibling_disjoint (hsub c' List.mem_cons_self)
        (hsub c'' (List.mem_cons_of_mem c' hc'')) (fun he => hnd (he ▸ hc'')) hj)]
      exact h.off j hj
    · exact hoff c' hc' j hj

/-- The specification of a call at a node that is on. -/
def Renders (hF : ForestTable t) (stale : Int → Int) (fuel : Nat) : Prop :=
  ∀ (st : Branch) (i : Int) (lastSibling : Bool) (r : Bool × Branch),
    branchGenerate t stale fuel st i lastSibling = .ok r → InTable t i → On st.ir i →
    OnClosed hF.forest st.ir i → ((graphOf t).dep i ≠ [] ∨ st.branch = "") →
    r.1 = true ∧ Consumed hF.forest i st.ir r.2.ir ∧
    r.2.branch = st.branch ++ hF.forest.render (textsOf t st.ir) i ++
      (if lastSibling then "" else (textsOf t st.ir).sep i)

theorem branchGenerate_not_on {fuel : Nat} {st : Branch} {lastSibling : Bool} {r : Bool × Branch}
    (h : branchGenerate t stale fuel st i lastSibling = .ok r) (hoff : ¬ On st.ir i) :
    r = (false, st) := by
  cases fuel with
  | zero => cases h
  | succ fuel =>
    unfold branchGenerate at h
    obtain ⟨cell, hc, h⟩ := bind_eq_ok.1 h
    rw [rd_eq_ok] at hc
    rw [if_neg fun hv => hoff (enableOf_eq_some.2 ⟨cell, hc, hv⟩)] at h
    cases h
    rfl

theorem eq_last_iff {c last : Int} {l : List Int} {on : Int → Bool} (hnd : (c :: l).Nodup)
    (hc : on c = true) (hlast : ((c :: l).filter on).getLast? = some last) :
    c = last ↔ l.filter on = [] := by
  rw [List.filter_cons_of_pos hc] at hlast
  constructor
  · intro hcl
    by_contra hne
    have hmem : last ∈ l.filter on := by
      rw [List.getLast?_cons_of_ne_nil hne] at hlast
      exact List.mem_of_getLast? hlast
    rw [← hcl] at hmem
    exact (List.nodup_cons.1 hnd).1 (List.mem_filter.1 hmem).1
  · intro hnil
    rw [hnil] at hlast
    exact Option.some.inj hlast

theorem joinSep_filter_cons {c last : Int} {l : List Int} {on : Int → Bool}
    (text sep : Int → String) (hnd : (c :: l).Nodup) (hc : on c = true)
    (hlast : ((c :: l).filter on).getLast? = some last) :
    joinSep text sep ((c :: l).filter on) =
      text c ++ (if (c == last) = true then "" else sep c) ++ joinSep text sep (l.filter on) := by
  have hiff := eq_last_iff hnd hc hlast
  rw [List.filter_cons_of_pos hc]
  cases hm : l.filter on with
  | nil =>
    have hcl : c = last := hiff.2 hm
    simp [joinSep, hcl]
  | cons c' l' =>
    have hcl : c ≠ last := fun h => by
      rw [hiff.1 h] at hm
      cases hm
    simp [joinSep, hcl]

/-- The loop over the children of `p` renders those that are on. -/
theorem branchChildren_renders {fuel : Nat} (ih : Renders hF stale fuel) {p last : Int} :
    ∀ {cs : List Int} {st st' : Branch}, (∀ c ∈ cs, c ∈ hF.forest.child p) → cs.Nodup →
      (∀ c ∈ cs, OnClosed hF.forest st.ir c) →
      (cs.filter (textsOf t st.ir).on ≠ [] →
        (cs.filter (textsOf t st.ir).on).getLast? = some last) →
      branchChildren t stale fuel last cs st = .ok st' →
      st'.branch = st.branch ++ joinSep (hF.forest.render (textsOf t st.ir)) (textsOf t st.ir).sep
        (cs.filter (textsOf t st.ir).on) ∧
      (∀ j, (∀ c ∈ cs, ¬ hF.forest.Desc c j) → at? st'.ir j = at? st.ir j) ∧
      ∀ c ∈ cs, ∀ j, hF.forest.Desc c j → ¬ On st'.ir j
  | [], st, st', _, _, _, _, h => by
    cases h
    exact ⟨(String.append_empty).symm, fun _ _ => rfl, fun c hc => absurd hc List.not_mem_nil⟩
  | c :: cs, st, st', hsub, hnd, hcl, hlast, h => by
    unfold branchChildren at h
    rw [List.foldlM_cons] at h
    obtain ⟨st1, h1, h⟩ := bind_eq_ok.1 h
    obtain ⟨r, hr, h1⟩ := bind_eq_ok.1 h1
    cases h1
    have hcp : c ∈ hF.forest.child p := hsub c List.mem_cons_self
    have hsub' : ∀ c' ∈ cs, c' ∈ hF.forest.child p := fun c' hc' =>
      hsub c' (List.mem_cons_of_mem c hc')
    have hnd' := List.nodup_cons.1 hnd
    by_cases hon : On st.ir c
    · obtain ⟨-, hcons, hbranch⟩ := ih st c _ r hr (hF.child_in p c hcp) hon
        (hcl c List.mem_cons_self) (.inl (hF.child_dep p c hcp))
      -- the call leaves the subtrees of the other children alone
      have hkeep : ∀ c' ∈ cs, ∀ j, hF.forest.Desc c' j → at? r.2.ir j = at? st.ir j := by
        intro c' hc' j hj
        refine hcons.frame j (hF.forest.sibling_disjoint (hsub' c' hc') hcp ?_ hj)
        rintro rfl
        exact hnd'.1 hc'
      have hconpos : (textsOf t st.ir).on c = true := decide_eq_true hon
      have hsome : ((c :: cs).filter (textsOf t st.ir).on).getLast? = some last := by
        apply hlast
        rw [List.filter_cons_of_pos hconpos]
        exact List.cons_ne_nil _ _
      have hlast' : cs.filter (textsOf t r.2.ir).on ≠ [] →
          (cs.filter (textsOf t r.2.ir).on).getLast? = some last := by
        rw [filter_on_congr fun c' hc' => hkeep c' hc' c' .refl]
        intro hne
        rwa [List.filter_cons_of_pos hconpos, List.getLast?_cons_of_ne_nil hne] at hsome
      obtain ⟨hb, hfr, hoff⟩ := branchChildren_renders ih hsub' hnd'.2
        (fun c' hc' => (hcl c' (List.mem_cons_of_mem c hc')).congr (hkeep c' hc')) hlast' h
      refine ⟨?_, hcons.cons hsub hnd'.1 hfr hoff⟩
      rw [hb, hbranch, joinOn_congr hkeep, joinSep_filter_cons _ _ hnd hconpos hsome]
      simp only [String.append_assoc]
    · rw [branchGenerate_not_on hr hon] at h
      have hconneg : ¬ (textsOf t st.ir).on c = true := fun h => hon (of_decide_eq_true h)
      rw [List.filter_cons_of_neg hconneg] at hlast ⊢
      obtain ⟨hb, hfr, hoff⟩ := branchChildren_renders ih hsub' hnd'.2
        (fun c' hc' => hcl c' (List.mem_cons_of_mem c hc')) hlast h
      have hcons : Consumed hF.forest c st.ir st.ir := .of_off (hcl c List.mem_cons_self) hon
      exact ⟨hb, hcons.cons hsub hnd'.1 hfr hoff⟩

theorem startText_eq {node : ArgNode} {branch : String}
    (h : node.dependencyId ≠ [] ∨ branch = "") : startText node branch = branch ++ node.arg := by
  unfold startText
  split
  · rename_i hnil
    rw [h.resolve_left fun hne => hne hnil, String.empty_append]
  · rfl

theorem endText_eq {node : ArgNode} {lastSibling : Bool} {branch : String} :
    endText node lastSibling branch =
      branch ++ (if lastSibling then "" else siblingText node) := by
  unfold endText
  split
  · rw [String.append_empty]
  · rfl

/-- **`branch_generate` renders the enabled part of the subtree of a node.** -/
theorem branchGenerate_renders : ∀ fuel, Renders hF stale fuel
  | 0 => by
    intro st i lastSibling r h
    cases h
  | fuel + 1 => by
    intro st i lastSibling r h hin hon hcl hbr
    obtain ⟨node, hn⟩ := at?_of_inTable hin rfl
    obtain ⟨cell, hc, hv⟩ := enableOf_eq_some.1 hon
    have hchild : hF.forest.child i = node.childId := graphOf_child hn
    have hsep : (textsOf t st.ir).sep i = siblingText node := by simp [textsOf, hn]
    have hstart : startText node st.branch = st.branch ++ node.arg := by
      rw [graphOf_dep hn] at hbr
      exact startText_eq hbr
    rw [hsep]
    by_cases hnil : node.childId = []
    · rw [branchGenerate_leaf hc hv hn hnil] at h
      cases h
      refine ⟨rfl, .of_children hc (fun _ _ => rfl) (fun c hcm => ?_), ?_⟩
      · rw [hchild, hnil] at hcm
        cases hcm
      · rw [Forest.render_leaf (hchild.trans hnil), endText_eq, hstart]
        simp [textsOf, hn, hc, String.append_assoc]
    · rw [branchGenerate_node hc hv hn hnil] at h
      obtain ⟨last, hlast, h⟩ := bind_eq_ok.1 h
      obtain ⟨st1, h1, h⟩ := bind_eq_ok.1 h
      cases h
      rw [← hchild] at hlast h1
      have hkeep : ∀ c ∈ hF.forest.child i, ∀ j, hF.forest.Desc c j →
          at? (put st.ir i { cell with enable := 2 }) j = at? st.ir j := by
        intro c hcm j hj
        rw [at?_put _ hc, if_neg]
        rintro rfl
        exact hF.forest.not_desc_parent hcm hj
      obtain ⟨hb, hfr, hoff⟩ := branchChildren_renders (branchGenerate_renders fuel)
        (fun c hcm => hcm) (hF.nodup i)
        (fun c hcm => OnClosed.congr (fun p c' hp hc' => hcl p c' (.of_child hcm hp) hc')
          (hkeep c hcm))
        (fun hne => by
          obtain ⟨x, hx⟩ := Option.ne_none_iff_exists'.1 (mt List.getLast?_eq_none_iff.1 hne)
          have hr : last = x := (lastEnabled_eq hlast).trans (congrArg (·.getD (stale i)) hx)
          rw [hr]
          exact hx) h1
      refine ⟨rfl, .of_children hc hfr hoff, ?_⟩
      have hhead : (textsOf t st.ir).head i = node.arg ++ operatorText node.operatorChild := by
        simp [textsOf, hn]
      rw [Forest.render_node (by rw [hchild]; exact hnil), hhead, endText_eq, hb, hstart,
        joinOn_congr hkeep]
      simp only [String.append_assoc]

/-! ## The loop -/

/-- The nodes of the table below `n` that are on and in no child list. -/
def enabledRoots (t : List ArgNode) (ir : List Ir) (n : Nat) : List Int :=
  ((List.range n).map Int.ofNat).filter fun r => On ir r ∧ ∀ p ∈ ids t, r ∉ (graphOf t).child p

theorem isRoot_iff : hF.forest.IsRoot i ↔ ∀ p ∈ ids t, i ∉ (graphOf t).child p :=
  ⟨fun h p _ => h p, fun h p hp => h p (mem_ids.2 (inTable_of_mem_child hp)) hp⟩

/-- The state of the emission loop at `k`. -/
structure EmittedAt (hF : ForestTable t) (ir : List Ir) (k : Nat) (o : Output) : Prop where
  ahead : ∀ r, hF.forest.IsRoot r → (k : Int) ≤ r → ∀ j, hF.forest.Desc r j →
    at? o.ir j = at? ir j
  behind : ∀ j, j < (k : Int) → ¬ On o.ir j
  closed : ∀ p c, c ∈ (graphOf t).child p → On o.ir c → On o.ir p
  branch : o.branch = ""
  cmd : o.cmd = " " ++ String.join ((enabledRoots t ir k).map fun r =>
    hF.forest.render (textsOf t ir) r ++ (textsOf t ir).sep r)

theorem enabledRoots_succ (k : Nat) : enabledRoots t ir (k + 1) = enabledRoots t ir k ++
    if On ir k ∧ ∀ p ∈ ids t, (k : Int) ∉ (graphOf t).child p then [(k : Int)] else [] := by
  unfold enabledRoots
  rw [List.range_succ, List.map_append, List.filter_append, List.map_singleton,
    List.filter_singleton, Bool.cond_decide]
  rfl

theorem join_concat (l : List String) (a : String) :
    String.join (l ++ [a]) = String.join l ++ a := by
  simp only [String.join, List.foldl_append, List.foldl_cons, List.foldl_nil]

theorem EmittedAt.step_off {k : Nat} {o : Output} (hI : EmittedAt hF ir k o)
    (hoff : ¬ On o.ir k) : EmittedAt hF ir (k + 1) o := by
  refine ⟨fun r hr hk => hI.ahead r hr (by omega), fun j hj => ?_, hI.closed, hI.branch,
    ?_⟩
  · by_cases hjk : j = k
    · rw [hjk]; exact hoff
    · exact hI.behind j (by omega)
  · have hno : ¬ (On ir k ∧ ∀ p ∈ ids t, (k : Int) ∉ (graphOf t).child p) := by
      rintro ⟨hon, hroot⟩
      rw [← on_congr (hI.ahead k (isRoot_iff.2 hroot) (Int.le_refl _) k .refl)] at hon
      exact hoff hon
    rw [enabledRoots_succ, if_neg hno, List.append_nil]
    exact hI.cmd

/-- A turn at a node that is on: it is a root, and its tree is rendered. -/
theorem EmittedAt.step_on {k : Nat} {o : Output} {r : Bool × Branch} (hk : k < t.length)
    (hI : EmittedAt hF ir k o) (hon : On o.ir k)
    (hr : branchGenerate t stale (o.ir.length + 1) ⟨o.ir, o.branch⟩ k false = .ok r) :
    r.1 = true ∧ EmittedAt hF ir (k + 1) ⟨r.2.ir, "", o.cmd ++ r.2.branch⟩ := by
  have hroot : hF.forest.IsRoot k := by
    intro p hp
    exact hI.behind p (hF.child_above p k hp) (hI.closed p k hp hon)
  have htree := hI.ahead k hroot (Int.le_refl _)
  have hin : InTable t k := ⟨by omega, by omega⟩
  obtain ⟨hemit, hcons, hbranch⟩ := branchGenerate_renders _ _ _ _ _ hr hin hon
    (fun p c _ hc => hI.closed p c hc) (.inr hI.branch)
  refine ⟨hemit, fun r' hr' hk' j hj => ?_, fun j hj => ?_, fun p c hc hcon => ?_, rfl, ?_⟩
  · have hne : r' ≠ k := by omega
    rw [hcons.frame j (hr'.disjoint hroot hne hj)]
    exact hI.ahead r' hr' (by omega) j hj
  · by_cases hd : hF.forest.Desc k j
    · exact hcons.off j hd
    · rw [on_congr (hcons.frame j hd)]
      refine hI.behind j ?_
      have hjk : j ≠ k := by
        rintro rfl
        exact hd .refl
      omega
  · have hcd : ¬ hF.forest.Desc k c := fun hd => hcons.off c hd hcon
    have hpd : ¬ hF.forest.Desc k p := fun hd => hcd (hd.to_child hc)
    rw [on_congr (hcons.frame c hcd)] at hcon
    rw [on_congr (hcons.frame p hpd)]
    exact hI.closed p c hc hcon
  · have hir : On ir k := (on_congr (htree k .refl)).1 hon
    rw [enabledRoots_succ, if_pos ⟨hir, isRoot_iff.1 hroot⟩, List.map_append, List.map_singleton,
      join_concat, ← String.append_assoc, ← hI.cmd, hbranch, render_textsOf_congr htree]
    simp only [hI.branch, String.empty_append]
    rfl

theorem EmittedAt.step {k : Nat} {o o' : Output} (hk : k < t.length)
    (hI : EmittedAt hF ir k o) (h : emitStep t stale k o = .ok o') :
    EmittedAt hF ir (k + 1) o' := by
  unfold emitStep at h
  obtain ⟨⟨emitted, st⟩, hr, h⟩ := bind_eq_ok.1 h
  by_cases hon : On o.ir k
  · obtain ⟨hemit, hI'⟩ := hI.step_on hk hon hr
    cases hemit
    cases h
    exact hI'
  · cases branchGenerate_not_on hr hon
    cases h
    exact hI.step_off hon

end

/-- **The command is the rendering of the enabled forest.** On a table whose child lists
form a forest, from marks under which every child that is on has its parent on,
the emission loop writes the texts of the enabled roots in order, each with its
separator. -/
theorem emitLoop_renders (t : List ArgNode) (hF : ForestTable t) (stale : Int → Int)
    (ir : List Ir) (hl : ir.length = t.length)
    (hon : ∀ p c, c ∈ (graphOf t).child p → On ir c → On ir p) :
    ∃ o, emitLoop t stale t.length ir "" = .ok o ∧
      o.cmd = " " ++ String.join ((enabledRoots t ir t.length).map fun r =>
        hF.forest.render (textsOf t ir) r ++ (textsOf t ir).sep r) := by
  have hids : ∀ node ∈ t, ∀ c ∈ node.childId, InTable t c := by
    intro node hnode c hc
    obtain ⟨k, hk⟩ := List.mem_iff_getElem?.1 hnode
    rw [← at?_natCast] at hk
    exact hF.child_in k c (by rw [graphOf_child hk]; exact hc)
  obtain ⟨o, ho, -⟩ : ∃ o, emitLoop t stale t.length ir "" = .ok o ∧ _ :=
    emitLoop_total hids hl ""
  have hstart : EmittedAt hF ir 0 ⟨ir, "", " "⟩ := by
    refine ⟨fun _ _ _ _ _ => rfl, fun j hj hjon => ?_, hon, rfl, rfl⟩
    have := (range_of_enableOf hjon).1
    omega
  have hI := forUpto_inv (EmittedAt hF ir) hstart (fun k o o' hk hI h => hI.step hk h) ho
  exact ⟨o, ho, hI.cmd⟩

theorem forestTable_iff {t : List ArgNode} : ForestTable t ↔
    (∀ p ∈ ids t, ((graphOf t).child p).Nodup) ∧
    ∀ p ∈ ids t, ∀ c ∈ (graphOf t).child p, InTable t c ∧ p < c ∧ (graphOf t).dep c ≠ [] ∧
      ∀ q ∈ ids t, c ∈ (graphOf t).child q → p = q := by
  refine ⟨fun h => ⟨fun p _ => h.nodup p, fun p _ c hc => ⟨h.child_in p c hc, h.child_above p c hc,
    h.child_dep p c hc, fun q _ hq => h.parent_unique p q c hc hq⟩⟩, fun ⟨hnd, h⟩ => ?_⟩
  have hin : ∀ p c, c ∈ (graphOf t).child p → p ∈ ids t :=
    fun p c hc => mem_ids.2 (inTable_of_mem_child hc)
  refine ⟨fun p c hc => (h p (hin p c hc) c hc).1, fun p c hc => (h p (hin p c hc) c hc).2.1,
    fun p q c hp hq => (h p (hin p c hp) c hp).2.2.2 q (hin q c hq) hq, fun p => ?_,
    fun p c hc => (h p (hin p c hc) c hc).2.2.1⟩
  by_cases hp : p ∈ ids t
  · exact hnd p hp
  · have hnil : (graphOf t).child p = [] :=
      List.eq_nil_iff_forall_not_mem.2 fun c hc => hp (hin p c hc)
    rw [hnil]
    exact List.nodup_nil

/-- `-J` with a device. -/
theorem journal_renders : ∃ o, emitLoop journalTable (fun _ => 7) 3
    [⟨1, 0, ""⟩, ⟨2, 0, ""⟩, ⟨1, 0, ""⟩] "" = .ok o ∧ o.cmd = " -J device= " := by
  have hF : ForestTable journalTable := forestTable_iff.2 (by decide)
  have hon : ∀ p c, c ∈ (graphOf journalTable).child p →
      On [⟨1, 0, ""⟩, ⟨2, 0, ""⟩, ⟨1, 0, ""⟩] c → On [⟨1, 0, ""⟩, ⟨2, 0, ""⟩, ⟨1, 0, ""⟩] p := by
    have h : ∀ p ∈ ids journalTable, ∀ c ∈ (graphOf journalTable).child p,
        On [⟨1, 0, ""⟩, ⟨2, 0, ""⟩, ⟨1, 0, ""⟩] p := by decide
    exact fun p c hc _ => h p (mem_ids.2 (inTable_of_mem_child hc)) c hc
  obtain ⟨o, ho, hcmd⟩ := emitLoop_renders journalTable hF (fun _ => 7)
    [⟨1, 0, ""⟩, ⟨2, 0, ""⟩, ⟨1, 0, ""⟩] rfl hon
  refine ⟨o, ho, hcmd.trans ?_⟩
  have hroots : enabledRoots journalTable [⟨1, 0, ""⟩, ⟨2, 0, ""⟩, ⟨1, 0, ""⟩] 3 = [0] := by decide
  rw [show journalTable.length = 3 from rfl, hroots]
  have h2 : hF.forest.render (textsOf journalTable [⟨1, 0, ""⟩, ⟨2, 0, ""⟩, ⟨1, 0, ""⟩]) 2 =
      "device=" := Forest.render_leaf rfl
  have h0 : hF.forest.render (textsOf journalTable [⟨1, 0, ""⟩, ⟨2, 0, ""⟩, ⟨1, 0, ""⟩]) 0 =
      "-J device=" := by
    have hchild : hF.forest.child 0 = [1, 2] := rfl
    rw [Forest.render_node (by rw [hchild]; exact List.cons_ne_nil _ _), hchild]
    have hfilter : [1, 2].filter
        (textsOf journalTable [⟨1, 0, ""⟩, ⟨2, 0, ""⟩, ⟨1, 0, ""⟩]).on = [2] := by decide
    rw [hfilter, joinSep, h2]
    rfl
  rw [List.map_singleton, h0]
  rfl

end ConFuzz
