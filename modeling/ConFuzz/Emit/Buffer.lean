import ConFuzz.Emit.Steps

/-!
# What the buffer held

A node with a dependency is written behind what `branch` holds, one without starts
`branch` anew. So of the text that the buffer holds before the emission loop a
command shows either nothing or all of it, in front of its first branch. The first
branch drops it when it comes to a node without dependency: `StartsOver` finds
such a node along nodes that are on, whatever graph the children form.
-/

namespace ConFuzz

open ConFuzz.CLib ConFuzz.Config

/-- From `id` a node without dependency is reached along children that are on. -/
inductive StartsOver (t : List ArgNode) (ir : List Ir) : Int → Prop where
  | here {id : Int} : On ir id → (graphOf t).dep id = [] → StartsOver t ir id
  | child {id c : Int} : On ir id → c ∈ (graphOf t).child id → StartsOver t ir c →
      StartsOver t ir id

/-- The first node that is on drops what the buffer held, if there is one. -/
def BufferUnread (t : List ArgNode) (ir : List Ir) : Prop :=
  ∀ r : Int, On ir r → (∀ j < r, ¬ On ir j) → StartsOver t ir r

/-- Only nodes that do not start over have gone off. -/
def KeepsStarts (t : List ArgNode) (ir ir' : List Ir) : Prop :=
  (∀ j, On ir' j → On ir j) ∧ ∀ j, On ir j → StartsOver t ir j → On ir' j

section

variable {t : List ArgNode} {ir ir' ir'' : List Ir} {id i : Int} {stale : Int → Int}

theorem StartsOver.on (h : StartsOver t ir id) : On ir id := by
  cases h with
  | here hon _ => exact hon
  | child hon _ _ => exact hon

theorem StartsOver.mono (hsub : ∀ j, On ir' j → On ir j) (h : StartsOver t ir' id) :
    StartsOver t ir id := by
  induction h with
  | here hon hdep => exact .here (hsub _ hon) hdep
  | child hon hc _ ih => exact .child (hsub _ hon) hc ih

theorem KeepsStarts.refl (t : List ArgNode) (ir : List Ir) : KeepsStarts t ir ir :=
  ⟨fun _ h => h, fun _ h _ => h⟩

theorem KeepsStarts.startsOver (h : KeepsStarts t ir ir') (hs : StartsOver t ir id) :
    StartsOver t ir' id := by
  induction hs with
  | here hon hdep => exact .here (h.2 _ hon (.here hon hdep)) hdep
  | child hon hc hs ih => exact .child (h.2 _ hon (.child hon hc hs)) hc ih

theorem KeepsStarts.trans (h1 : KeepsStarts t ir ir') (h2 : KeepsStarts t ir' ir'') :
    KeepsStarts t ir ir'' :=
  ⟨fun j h => h1.1 j (h2.1 j h), fun j h hs => h2.2 j (h1.2 j h hs) (h1.startsOver hs)⟩

theorem KeepsStarts.off {cell : Ir} (hc : at? ir id = some cell) (hno : ¬ StartsOver t ir id) :
    KeepsStarts t ir (put ir id { cell with enable := 2 }) := by
  have hon : ∀ j, On (put ir id { cell with enable := 2 }) j ↔ j ≠ id ∧ On ir j := by
    intro j
    unfold On enableOf
    rw [at?_put _ hc]
    by_cases hj : j = id <;> simp [hj]
  refine ⟨fun j h => ((hon j).1 h).2, fun j h hs => (hon j).2 ⟨?_, h⟩⟩
  rintro rfl
  exact hno hs

theorem StartsOver.past {cell : Ir} (hc : at? ir id = some cell)
    (hdep : (graphOf t).dep id ≠ []) (h : StartsOver t ir i) :
    StartsOver t (put ir id { cell with enable := 2 }) i ∧ i ≠ id ∨
      ∃ c ∈ (graphOf t).child id, StartsOver t (put ir id { cell with enable := 2 }) c := by
  have hon : ∀ j, j ≠ id → On ir j → On (put ir id { cell with enable := 2 }) j := by
    intro j hj h
    unfold On enableOf at h ⊢
    rw [at?_put _ hc, if_neg hj]
    exact h
  induction h with
  | @here j hj hd =>
    have hne : j ≠ id := by
      rintro rfl
      exact hdep hd
    exact .inl ⟨.here (hon j hne hj) hd, hne⟩
  | @child j c hj hcj _ ih =>
    rcases ih with ⟨hs, -⟩ | hs
    · by_cases hne : j = id
      · subst hne
        exact .inr ⟨c, hcj, hs⟩
      · exact .inl ⟨.child (hon j hne hj) hcj hs, hne⟩
    · exact .inr hs

/-! ## One call from two buffers -/

/-- Buffers that hold one text behind two others. -/
def Behind (b b' : String) (x x' : String) : Prop := ∃ y, x = b ++ y ∧ x' = b' ++ y

theorem Behind.append {b b' x x' : String} (h : Behind b b' x x') (text : String) :
    Behind b b' (x ++ text) (x' ++ text) := by
  obtain ⟨y, rfl, rfl⟩ := h
  exact ⟨y ++ text, String.append_assoc, String.append_assoc⟩

theorem Behind.endText {b b' x x' : String} (h : Behind b b' x x') (node : ArgNode)
    (lastSibling : Bool) :
    Behind b b' (endText node lastSibling x) (endText node lastSibling x') := by
  unfold ConFuzz.endText
  split
  · exact h
  · exact h.append _

/-- States of `branch_generate` behind two texts, after some calls from `ir`. -/
def BehindFrom (t : List ArgNode) (b b' : String) (ir : List Ir) (st st' : Branch) : Prop :=
  st.ir = st'.ir ∧ Behind b b' st.branch st'.branch ∧ KeepsStarts t ir st.ir

/-- Two calls at `id` from the marks `ir`: their buffers are dropped, or kept in front. -/
structure CallsBehind (t : List ArgNode) (b b' : String) (ir : List Ir) (id : Int)
    (r r' : Except Fault (Bool × Branch)) : Prop where
  drop : StartsOver t ir id → Alike Eq r r'
  keep : ¬ StartsOver t ir id →
    Alike (fun r r' => r.1 = r'.1 ∧ BehindFrom t b b' ir r.2 r'.2) r r'

/-- Calls with the bound `fuel` drop the buffer or keep it. -/
def TwoCalls (t : List ArgNode) (stale : Int → Int) (b b' : String) (fuel : Nat) : Prop :=
  ∀ (ir : List Ir) (x x' : String) (id : Int) (lastSibling : Bool), Behind b b' x x' →
    CallsBehind t b b' ir id (branchGenerate t stale fuel ⟨ir, x⟩ id lastSibling)
      (branchGenerate t stale fuel ⟨ir, x'⟩ id lastSibling)

theorem TwoCalls.children {b b' : String} {fuel : Nat} {last : Int}
    (h : TwoCalls t stale b b' fuel) : ∀ {l : List Int} {ir : List Ir} {x x' : String},
      Behind b b' x x' →
      ((∃ c ∈ l, StartsOver t ir c) → Alike Eq (branchChildren t stale fuel last l ⟨ir, x⟩)
        (branchChildren t stale fuel last l ⟨ir, x'⟩)) ∧
      ((∀ c ∈ l, ¬ StartsOver t ir c) → Alike (BehindFrom t b b' ir)
        (branchChildren t stale fuel last l ⟨ir, x⟩) (branchChildren t stale fuel last l ⟨ir, x'⟩))
  | [], ir, x, x', hx => by
    refine ⟨?_, fun _ => ⟨rfl, hx, .refl t ir⟩⟩
    rintro ⟨c, hc, -⟩
    cases hc
  | c :: l, ir, x, x', hx => by
    have hunfold : ∀ x, branchChildren t stale fuel last (c :: l) ⟨ir, x⟩ =
        (branchGenerate t stale fuel ⟨ir, x⟩ c (c == last) >>= fun r => .ok r.2) >>=
          branchChildren t stale fuel last l := fun x => List.foldlM_cons
    rw [hunfold, hunfold]
    by_cases hs : StartsOver t ir c
    · refine ⟨fun _ => ?_, fun hno => absurd hs (hno c List.mem_cons_self)⟩
      rw [((h ir x x' c (c == last) hx).drop hs).eq]
      exact (Alike.self _).mono fun _ _ h => h.1
    · have hcall : Alike (BehindFrom t b b' ir)
          (branchGenerate t stale fuel ⟨ir, x⟩ c (c == last) >>= fun r => .ok r.2)
          (branchGenerate t stale fuel ⟨ir, x'⟩ c (c == last) >>= fun r => .ok r.2) :=
        ((h ir x x' c (c == last) hx).keep hs).bind fun _ _ hr => hr.2
      refine ⟨fun hex => ?_, fun hno => ?_⟩
      · obtain ⟨c', hc', hs'⟩ := hex
        have hc' : c' ∈ l := (List.mem_cons.1 hc').resolve_left fun he => hs (he ▸ hs')
        refine hcall.bind ?_
        rintro ⟨ir1, x1⟩ ⟨ir1', x1'⟩ ⟨hir, hx1, hkeep⟩
        obtain rfl : ir1 = ir1' := hir
        exact (h.children hx1).1 ⟨c', hc', hkeep.startsOver hs'⟩
      · refine hcall.bind ?_
        rintro ⟨ir1, x1⟩ ⟨ir1', x1'⟩ ⟨hir, hx1, hkeep⟩
        obtain rfl : ir1 = ir1' := hir
        refine ((h.children hx1).2 fun c' hc' hs' => ?_).mono ?_
        · exact hno c' (List.mem_cons_of_mem c hc') (hs'.mono hkeep.1)
        · rintro st st' ⟨hst, hb, hkeep'⟩
          exact ⟨hst, hb, hkeep.trans hkeep'⟩

variable {b b' x x' : String} {fuel : Nat} {cell : Ir} {node : ArgNode}

theorem callsBehind_leaf (hc : at? ir id = some cell) (hon : cell.enable = 1)
    (hn : at? t id = some node) (hnil : node.childId = []) (hx : Behind b b' x x')
    (lastSibling : Bool) :
    CallsBehind t b b' ir id (branchGenerate t stale (fuel + 1) ⟨ir, x⟩ id lastSibling)
      (branchGenerate t stale (fuel + 1) ⟨ir, x'⟩ id lastSibling) := by
  have hid : On ir id := enableOf_eq_some.2 ⟨cell, hc, hon⟩
  have hleaf := fun y => @branchGenerate_leaf t stale fuel ⟨ir, y⟩ id lastSibling node cell hc hon
    hn hnil
  rw [hleaf x, hleaf x']
  unfold startText
  refine ⟨fun hs => ?_, fun hno => ⟨rfl, rfl, ?_, .off hc hno⟩⟩
  · have hdep : node.dependencyId = [] := by
      cases hs with
      | here _ hdep => rwa [graphOf_dep hn] at hdep
      | child _ hcm _ =>
        rw [graphOf_child hn, hnil] at hcm
        cases hcm
    rw [if_pos hdep, if_pos hdep]
    exact rfl
  · have hdep : node.dependencyId ≠ [] := fun hd => hno (.here hid ((graphOf_dep hn).trans hd))
    rw [if_neg hdep, if_neg hdep]
    exact (((hx.append _).append _).append _).endText node lastSibling

/-- A node with children starts over when it has no dependency or one of them does. -/
theorem TwoCalls.parent (h : TwoCalls t stale b b' fuel) (hc : at? ir id = some cell)
    (hon : cell.enable = 1) (hn : at? t id = some node) (hne : node.childId ≠ [])
    (hx : Behind b b' x x') (lastSibling : Bool) :
    CallsBehind t b b' ir id (branchGenerate t stale (fuel + 1) ⟨ir, x⟩ id lastSibling)
      (branchGenerate t stale (fuel + 1) ⟨ir, x'⟩ id lastSibling) := by
  have hid : On ir id := enableOf_eq_some.2 ⟨cell, hc, hon⟩
  have hnode := fun y => @branchGenerate_node t stale fuel ⟨ir, y⟩ id lastSibling node cell hc hon
    hn hne
  rw [hnode x, hnode x']
  unfold startText
  by_cases hdep : node.dependencyId = []
  · rw [if_pos hdep, if_pos hdep]
    refine ⟨fun _ => (Alike.self _).mono fun _ _ h => h.1, fun hno => ?_⟩
    exact absurd (.here hid ((graphOf_dep hn).trans hdep)) hno
  · rw [if_neg hdep, if_neg hdep]
    have hbehind := (hx.append node.arg).append (operatorText node.operatorChild)
    refine ⟨fun hs => ?_, fun hno => ?_⟩
    · refine (Alike.self _).bind ?_
      rintro last _ ⟨rfl, -⟩
      -- the way to the node without dependency need not come back to `id`, which is off by now
      have hex : ∃ c ∈ node.childId, StartsOver t (put ir id { cell with enable := 2 }) c := by
        rw [← graphOf_child hn]
        exact (hs.past hc (by rwa [graphOf_dep hn])).resolve_left fun hi => hi.2 rfl
      refine ((h.children hbehind).1 hex).bind ?_
      rintro st _ rfl
      exact rfl
    · refine (Alike.self _).bind ?_
      rintro last _ ⟨rfl, -⟩
      have hkeep : KeepsStarts t ir (put ir id { cell with enable := 2 }) := .off hc hno
      have hnone : ∀ c ∈ node.childId,
          ¬ StartsOver t (put ir id { cell with enable := 2 }) c := by
        intro c hcm hs
        exact hno (.child hid (by rwa [graphOf_child hn]) (hs.mono hkeep.1))
      refine ((h.children hbehind).2 hnone).bind ?_
      rintro st st' ⟨hir, hbranch, hkeep'⟩
      exact ⟨rfl, hir, hbranch.endText node lastSibling, hkeep.trans hkeep'⟩

/-- **A call from two buffers** drops what they hold, or keeps it in front of its text. -/
theorem twoCalls (t : List ArgNode) (stale : Int → Int) (b b' : String) :
    ∀ fuel, TwoCalls t stale b b' fuel
  | 0, _, _, _, _, _, _ => ⟨fun _ => rfl, fun _ => rfl⟩
  | fuel + 1, ir, x, x', id, lastSibling, hx => by
    cases hc : at? ir id with
    | none =>
      have hfault : ∀ x, branchGenerate t stale (fuel + 1) ⟨ir, x⟩ id lastSibling =
          .error (.outOfBounds ir.length id) := by
        intro x
        unfold branchGenerate rd
        rw [hc]
        rfl
      rw [hfault, hfault]
      exact ⟨fun _ => rfl, fun _ => rfl⟩
    | some cell =>
      by_cases hon : cell.enable = 1
      · cases hn : at? t id with
        | none =>
          have hfault : ∀ x, branchGenerate t stale (fuel + 1) ⟨ir, x⟩ id lastSibling =
              .error (.outOfBounds t.length id) := by
            intro x
            unfold branchGenerate
            rw [rd_eq_ok.2 hc, ok_bind, if_pos hon, setEnable_eq_ok.2 ⟨cell, hc, rfl⟩, ok_bind]
            unfold rd
            rw [hn]
            rfl
          rw [hfault, hfault]
          exact ⟨fun _ => rfl, fun _ => rfl⟩
        | some node =>
          by_cases hnil : node.childId = []
          · exact callsBehind_leaf hc hon hn hnil hx lastSibling
          · exact (twoCalls t stale b b' fuel).parent hc hon hn hnil hx lastSibling
      · have hoff := fun y => @branchGenerate_off t stale fuel ⟨ir, y⟩ id lastSibling cell hc hon
        rw [hoff x, hoff x']
        refine ⟨fun hs => ?_, fun _ => ⟨rfl, rfl, hx, .refl t ir⟩⟩
        obtain ⟨cell', hc', hon'⟩ := enableOf_eq_some.1 hs.on
        rw [hc] at hc'
        cases hc'
        exact absurd hon' hon

/-! ## The emission loop from two buffers -/

theorem branchGenerate_emits {st : Branch} {lastSibling : Bool} {r : Bool × Branch}
    (h : branchGenerate t stale fuel st i lastSibling = .ok r) (hon : On st.ir i) :
    r.1 = true := by
  cases fuel with
  | zero => cases h
  | succ fuel =>
    obtain ⟨cell, hc, hv⟩ := enableOf_eq_some.1 hon
    cases hn : at? t i with
    | none =>
      unfold branchGenerate rd at h
      rw [hc] at h
      simp only [ok_bind, hv, if_true, setEnable_eq_ok.2 ⟨cell, hc, rfl⟩, hn] at h
      cases h
    | some node =>
      by_cases hnil : node.childId = []
      · rw [branchGenerate_leaf hc hv hn hnil] at h
        cases h
        rfl
      · rw [branchGenerate_node hc hv hn hnil] at h
        obtain ⟨last, -, h⟩ := bind_eq_ok.1 h
        obtain ⟨st1, -, h⟩ := bind_eq_ok.1 h
        cases h
        rfl

/-- Commands that show two texts in front of one, or one command where the buffer is dropped. -/
structure SameCommand (t : List ArgNode) (ir : List Ir) (b b' : String) (o o' : Output) : Prop where
  marks : o.ir = o'.ir
  unread : BufferUnread t ir → o.cmd = o'.cmd
  read : ¬ BufferUnread t ir → ∃ c, o.cmd = " " ++ b ++ c ∧ o'.cmd = " " ++ b' ++ c

/-- The loop from two buffers at `k`: nothing was on so far, or the first branch is written. -/
def TwoOutputs (t : List ArgNode) (ir : List Ir) (b b' : String) (k : Nat) (o o' : Output) :
    Prop :=
  (o = ⟨ir, b, " "⟩ ∧ o' = ⟨ir, b', " "⟩ ∧ ∀ j < (k : Int), ¬ On ir j) ∨
    o.branch = o'.branch ∧ SameCommand t ir b b' o o'

theorem TwoOutputs.first {k : Nat} (hon : On ir k) (hfirst : ∀ j < (k : Int), ¬ On ir j) :
    Alike (TwoOutputs t ir b b' (k + 1)) (emitStep t stale k ⟨ir, b, " "⟩)
      (emitStep t stale k ⟨ir, b', " "⟩) := by
  have hunread : BufferUnread t ir ↔ StartsOver t ir k := by
    refine ⟨fun h => h k hon hfirst, fun h r hr hlow => ?_⟩
    have h1 : ¬ r < k := fun hlt => hfirst r hlt hr
    have h2 : ¬ (k : Int) < r := fun hlt => hlow k hlt hon
    obtain rfl : r = k := by omega
    exact h
  have hcall := twoCalls t stale b b' (ir.length + 1) ir b b' k false
    ⟨"", String.append_empty.symm, String.append_empty.symm⟩
  unfold emitStep
  by_cases hs : StartsOver t ir k
  · refine (hcall.drop hs).bind ?_
    rintro ⟨emitted, st⟩ _ rfl
    cases emitted <;> exact .inr ⟨rfl, rfl, fun _ => rfl, fun hno => absurd (hunread.2 hs) hno⟩
  · refine (hcall.keep hs).and_ok.bind ?_
    rintro ⟨emitted, st⟩ ⟨emitted', st'⟩ ⟨⟨hemit, hir, ⟨y, hy, hy'⟩, -⟩, hr'⟩
    obtain rfl : emitted' = true := branchGenerate_emits hr' hon
    obtain rfl : emitted = true := hemit
    refine .inr ⟨rfl, hir, fun hun => absurd (hunread.1 hun) hs, fun _ => ⟨y, ?_, ?_⟩⟩
    · show " " ++ st.branch = _
      rw [hy, String.append_assoc]
    · show " " ++ st'.branch = _
      rw [hy', String.append_assoc]

theorem TwoOutputs.step {k : Nat} {o o' : Output} (h : TwoOutputs t ir b b' k o o') :
    Alike (TwoOutputs t ir b b' (k + 1)) (emitStep t stale k o) (emitStep t stale k o') := by
  rcases h with ⟨rfl, rfl, hfirst⟩ | ⟨hbranch, hsame⟩
  · by_cases hon : On ir k
    · exact TwoOutputs.first hon hfirst
    · have hnext : ∀ j < ((k + 1 : Nat) : Int), ¬ On ir j := by
        intro j hj
        by_cases hjk : j = k
        · rw [hjk]
          exact hon
        · exact hfirst j (by omega)
      cases hc : at? ir k with
      | none =>
        unfold emitStep branchGenerate rd
        rw [hc]
        exact rfl
      | some cell =>
        have hv : cell.enable ≠ 1 := fun hv => hon (enableOf_eq_some.2 ⟨cell, hc, hv⟩)
        have hoff := fun y => @branchGenerate_off t stale ir.length ⟨ir, y⟩ k false cell hc hv
        unfold emitStep
        rw [hoff b, hoff b']
        exact .inl ⟨rfl, rfl, hnext⟩
  · obtain ⟨ir1, branch, cmd⟩ := o
    obtain ⟨ir2, branch', cmd'⟩ := o'
    obtain rfl : ir1 = ir2 := hsame.marks
    obtain rfl : branch = branch' := hbranch
    unfold emitStep
    refine (Alike.self _).bind ?_
    rintro ⟨emitted, st⟩ _ ⟨rfl, -⟩
    cases emitted with
    | false => exact .inr ⟨rfl, rfl, hsame.unread, hsame.read⟩
    | true =>
      refine .inr ⟨rfl, rfl, fun hun => ?_, fun hre => ?_⟩
      · show cmd ++ st.branch = cmd' ++ st.branch
        rw [show cmd = cmd' from hsame.unread hun]
      · obtain ⟨c, hc, hc'⟩ := hsame.read hre
        refine ⟨c ++ st.branch, ?_, ?_⟩
        · show cmd ++ st.branch = _
          rw [show cmd = _ from hc, String.append_assoc]
        · show cmd' ++ st.branch = _
          rw [show cmd' = _ from hc', String.append_assoc]

/-- **The emission loop from two buffers.** The commands are the same, or differ in what the
buffers held in front of the first branch. -/
theorem emitLoop_buffers {n : Nat} (hl : ir.length ≤ n) :
    Alike (SameCommand t ir b b') (emitLoop t stale n ir b) (emitLoop t stale n ir b') := by
  have hstart : TwoOutputs t ir b b' 0 ⟨ir, b, " "⟩ ⟨ir, b', " "⟩ := by
    refine .inl ⟨rfl, rfl, fun j hj hon => ?_⟩
    have := (range_of_enableOf hon).1
    omega
  refine (forUpto_rel (TwoOutputs t ir b b') hstart fun k o o' _ h => h.step).mono ?_
  rintro o o' (⟨rfl, rfl, hoff⟩ | ⟨-, hsame⟩)
  · have hun : BufferUnread t ir := by
      intro r hr
      have := (range_of_enableOf hr).2
      exact absurd hr (hoff r (by omega))
    exact ⟨rfl, fun _ => rfl, fun hno => absurd hun hno⟩
  · exact hsame

end

end ConFuzz
