import ConFuzz.Resolve.Values
import Mathlib.Data.Set.Function
import Mathlib.Data.Set.Restrict

/-!
# The values of a whole run

The first loop of `arg_fuzz` draws a value for every node, one `rand_num` for
each node whose type draws at all, and the two iterations after it leave the
values alone (`secondPass_values`). So at the emission loop every value is a
documented one, and any documented values can be drawn together: the draws of
different nodes are different calls (`drawPos`).
-/

namespace ConFuzz

open ConFuzz.CLib

/-! ## Documented values -/

/-- The cell holds a documented value of its node. -/
structure Documented (node : ArgNode) (cell : Ir) : Prop where
  arithmetic : ∀ a b c, node.valueType = 1 → node.valueInt = [a, b, c] →
    cell.valueInt ∈ arithmeticSet a b c
  geometric : ∀ a b c f, node.valueType = 2 → node.valueInt = [a, b, c, f] →
    cell.valueInt ∈ geometricSet a b c f
  text : node.valueType = 3 → cell.valueChar = node.valueChar
  texts : node.valueType = 4 → cell.valueChar ∈ node.valueCharArray

/-- The value of the node is of the documented form, and its steps fit an `int`. -/
structure NodeDoc (node : ArgNode) : Prop where
  doc : node.valueType = 1 ∨ node.valueType = 2 ∨ node.valueType = 4 → ValueDoc node
  steps : ¬ (node.valueType = 1 ∧ node.valueInt = [0, 2 ^ 31 - 1, 1])

def DrawsValue (node : ArgNode) : Prop :=
  node.valueType = 1 ∨ node.valueType = 2 ∨ node.valueType = 4

instance (node : ArgNode) : Decidable (DrawsValue node) := inferInstanceAs (Decidable (_ ∨ _))

section

variable {d : Draws} {t : List ArgNode} {node : ArgNode} {bitmap : List Nat}

theorem ValueDoc.valueOK (h : ValueDoc node) : ValueOK node := by
  cases h with
  | arithmetic a b c hty hv _ _ hc _ =>
    refine ⟨fun _ => ?_, fun h => by omega, fun h => by omega⟩
    rw [hv]
    refine ⟨Nat.le_refl 3, fun h => ?_⟩
    have : c = 0 := Option.some.inj h
    omega
  | geometric a b c f hty hv _ _ _ _ _ =>
    refine ⟨fun h => by omega, fun _ => ?_, fun h => by omega⟩
    rw [hv]
    exact Nat.le_refl 4
  | texts hty hne => exact ⟨fun h => by omega, fun h => by omega, fun _ => hne⟩

theorem NodeDoc.valueOK (h : NodeDoc node) : ValueOK node :=
  ⟨fun hty => (h.doc (.inl hty)).valueOK.arithmetic hty,
    fun hty => (h.doc (.inr (.inl hty))).valueOK.geometric hty,
    fun hty => (h.doc (.inr (.inr hty))).valueOK.strings hty⟩

def NodeDoc.check (node : ArgNode) : Bool :=
  match node.valueType, node.valueInt with
  | 1, [a, b, c] => a ≤ b ∧ b < 2 ^ 31 ∧ 1 ≤ c ∧ c < 2 ^ 31 ∧ ¬ (a = 0 ∧ b = 2 ^ 31 - 1 ∧ c = 1)
  | 1, _ => false
  | 2, [a, b, c, f] => b ≤ c ∧ c < 2 ^ 31 ∧ f < 2 ^ 31 ∧ a ^ c < 2 ^ 53 ∧ a ^ c * f < 2 ^ 53
  | 2, _ => false
  | 4, _ => node.valueCharArray ≠ []
  | _, _ => true

theorem nodeDoc_of_check (h : NodeDoc.check node = true) : NodeDoc node := by
  unfold NodeDoc.check at h
  split at h
  · rename_i a b c hty hv
    obtain ⟨hab, hb, hc, hc', hno⟩ := of_decide_eq_true h
    refine ⟨fun _ => .arithmetic a b c hty hv hab hb hc hc', ?_⟩
    rintro ⟨-, hv'⟩
    rw [hv] at hv'
    cases hv'
    exact hno ⟨rfl, rfl, rfl⟩
  · cases h
  · rename_i a b c f hty hv
    obtain ⟨hbc, hc, hf, hpow, hprod⟩ := of_decide_eq_true h
    exact ⟨fun _ => .geometric a b c f hty hv hbc hc hf hpow hprod, fun h => by omega⟩
  · cases h
  · rename_i hty
    exact ⟨fun _ => .texts hty (of_decide_eq_true h), fun h => by omega⟩
  · rename_i h1 h1' h2 h2' h4
    exact ⟨fun hty => by grind, fun h => by grind⟩

/-! ## One turn -/

theorem selectValue_put {i : Int} {s s' : Run} (h : selectValue d node i s = .ok s') :
    (s' = s ∨ ∃ cell cell', at? s.ir i = some cell ∧ s'.ir = put s.ir i cell' ∧
      cell'.enable = cell.enable) ∧
    s'.pos = if DrawsValue node then s.pos + 1 else s.pos := by
  have hint : ∀ {ir : List Ir} {v : Nat}, setValueInt s.ir i v = .ok ir →
      ∃ cell cell', at? s.ir i = some cell ∧ ir = put s.ir i cell' ∧
        cell'.enable = cell.enable := by
    intro ir v h
    obtain ⟨cell, hc, h⟩ := bind_eq_ok.1 h
    obtain ⟨-, rfl⟩ := wr_eq_ok.1 h
    exact ⟨cell, _, rd_eq_ok.1 hc, rfl, rfl⟩
  have hchar : ∀ {ir : List Ir} {v : String}, setValueChar s.ir i v = .ok ir →
      ∃ cell cell', at? s.ir i = some cell ∧ ir = put s.ir i cell' ∧
        cell'.enable = cell.enable := by
    intro ir v h
    obtain ⟨cell, hc, h⟩ := bind_eq_ok.1 h
    obtain ⟨-, rfl⟩ := wr_eq_ok.1 h
    exact ⟨cell, _, rd_eq_ok.1 hc, rfl, rfl⟩
  unfold selectValue at h
  split at h
  · rename_i hty
    obtain ⟨b, -, h⟩ := bind_eq_ok.1 h
    obtain ⟨a, -, h⟩ := bind_eq_ok.1 h
    obtain ⟨c, -, h⟩ := bind_eq_ok.1 h
    split at h
    · cases h
    · obtain ⟨ir, h1, h⟩ := bind_eq_ok.1 h
      cases h
      rw [if_pos (show DrawsValue node from .inl hty)]
      exact ⟨.inr (hint h1), rfl⟩
  · rename_i hty
    obtain ⟨lo, -, h⟩ := bind_eq_ok.1 h
    obtain ⟨hi, -, h⟩ := bind_eq_ok.1 h
    obtain ⟨base, -, h⟩ := bind_eq_ok.1 h
    obtain ⟨factor, -, h⟩ := bind_eq_ok.1 h
    obtain ⟨ir, h1, h⟩ := bind_eq_ok.1 h
    cases h
    rw [if_pos (show DrawsValue node from .inr (.inl hty))]
    exact ⟨.inr (hint h1), rfl⟩
  · rename_i hty
    obtain ⟨ir, h1, h⟩ := bind_eq_ok.1 h
    cases h
    have hno : ¬ DrawsValue node := by
      unfold DrawsValue
      omega
    rw [if_neg hno]
    exact ⟨.inr (hchar h1), rfl⟩
  · rename_i hty
    obtain ⟨text, -, h⟩ := bind_eq_ok.1 h
    obtain ⟨ir, h1, h⟩ := bind_eq_ok.1 h
    cases h
    rw [if_pos (show DrawsValue node from .inr (.inr hty))]
    exact ⟨.inr (hchar h1), rfl⟩
  · rename_i h1 h2 _ h4
    cases h
    have hno : ¬ DrawsValue node := by
      rintro (h | h | h) <;> contradiction
    rw [if_neg hno]
    exact ⟨.inl rfl, rfl⟩

theorem selectStep_frame {i : Nat} {s s' : Run} {j : Int}
    (h : selectStep d t bitmap i s = .ok s') (hj : j ≠ i) : at? s'.ir j = at? s.ir j := by
  obtain ⟨byte, -, h⟩ := bind_eq_ok.1 h
  obtain ⟨ir, h1, h⟩ := bind_eq_ok.1 h
  obtain ⟨node, -, h⟩ := bind_eq_ok.1 h
  have hir : at? ir j = at? s.ir j := by
    split at h1
    · obtain ⟨cell, hc, rfl⟩ := setEnable_eq_ok.1 h1
      rw [at?_put _ hc, if_neg hj]
    · cases h1
      rfl
  rcases (selectValue_put h).1 with rfl | ⟨cell, cell', hc, hput, -⟩
  · exact hir
  · rw [hput, at?_put _ hc, if_neg hj]
    exact hir

theorem NodeDoc.documented {cell : Ir} (h : NodeDoc node) (hd : Drawable node cell) :
    Documented node cell := by
  refine ⟨fun a b c hty hv => ?_, fun a b c f hty hv => ?_, fun hty => hd.text hty,
    fun hty => hd.texts hty⟩
  · cases h.doc (.inl hty) with
    | geometric a' b' c' f' hty' => omega
    | texts hty' => omega
    | arithmetic a' b' c' _ hv' hab hb hc1 hc =>
      rw [hv] at hv'
      cases hv'
      obtain ⟨d, i, s, s', cell', hs, hc', hint, -⟩ := hd
      rw [selectValue_arithmetic hty hv (by omega)] at hs
      obtain ⟨ir, h1, hs⟩ := bind_eq_ok.1 hs
      cases hs
      rcases steps_lt_or (a := a) hb hc1 with hsteps | ⟨rfl, rfl, rfl⟩
      · rw [← range_arithmeticValue s.pos hab hb hc1 hsteps, hint,
          field_of_at? (at?_setValueInt h1) hc']
        exact ⟨d, rfl⟩
      · exact absurd ⟨hty, hv⟩ h.steps
  · cases h.doc (.inr (.inl hty)) with
    | arithmetic a' b' c' hty' => omega
    | texts hty' => omega
    | geometric a' b' c' f' _ hv' hbc hc hf hpow hprod =>
      rw [hv] at hv'
      cases hv'
      exact hd.geometric hty hv hbc hc hf hpow hprod

def SameValue (node : ArgNode) (cell cell' : Ir) : Prop :=
  (node.valueType = 1 ∨ node.valueType = 2 → cell.valueInt = cell'.valueInt) ∧
    (node.valueType = 3 ∨ node.valueType = 4 → cell.valueChar = cell'.valueChar)

/-- The `k`-th call of `rand_num` returns `v` wherever it is between the bounds. -/
def Draws.Picks (d : Draws) (k v : Nat) : Prop :=
  ∀ lo hi, lo ≤ v → v < hi → d.randNum k lo hi = v

theorem arithmeticValue_pick {pos m a b c : Nat} (hd : d.Picks pos m) (hm : a + m * c ≤ b)
    (hb : b < 2 ^ 31) (hc : 1 ≤ c) (hsteps : (b - a) / c + 1 < 2 ^ 31) :
    arithmeticValue d pos a b c = a + m * c := by
  have hlt : m < stepBound a b c := by
    rw [stepBound_eq (by omega) hb hsteps, Nat.lt_succ_iff, Nat.le_div_iff_mul_le (by omega)]
    omega
  unfold arithmeticValue
  rw [hd 0 _ (Nat.zero_le m) hlt]
  exact toU64_natCast (by omega)

theorem geometricValue_pick {pos e a b c f : Nat} (hd : d.Picks pos e) (hbe : b ≤ e) (hec : e ≤ c)
    (hc : c < 2 ^ 31) (hf : f < 2 ^ 31) (hpow : a ^ c < 2 ^ 53) (hprod : a ^ c * f < 2 ^ 53) :
    geometricValue d pos a b c f = a ^ e * f := by
  obtain ⟨h1, h2⟩ := powers_exact hec hf hpow hprod
  have hbound : toU64 ((c + 1 : Nat) : Int) = c + 1 := toU64_natCast (by omega)
  unfold geometricValue
  rw [hbound, hd b (c + 1) hbe (by omega), toInt32_natCast (by omega)]
  exact d.powMul_exact a e f h1 h2

/-- For every documented value there is a draw that stores it. -/
theorem NodeDoc.exists_pick {cell : Ir} (h : NodeDoc node) (hc : Documented node cell) :
    ∃ v, ∀ (d : Draws) (i : Int) (s s' : Run) (cell' : Ir), d.Picks s.pos v →
      selectValue d node i s = .ok s' → at? s'.ir i = some cell' →
      SameValue node cell' cell := by
  by_cases hdraws : DrawsValue node
  · cases h.doc hdraws with
    | arithmetic a b c hty hv hab hb hc1 hc31 =>
      obtain ⟨m, hm, hle⟩ := hc.arithmetic a b c hty hv
      refine ⟨m, fun d i s s' cell' hd hs hcell => ⟨fun _ => ?_, fun h => by omega⟩⟩
      rw [selectValue_arithmetic hty hv (by omega)] at hs
      obtain ⟨ir, h1, hs⟩ := bind_eq_ok.1 hs
      cases hs
      rcases steps_lt_or (a := a) hb hc1 with hsteps | ⟨rfl, rfl, rfl⟩
      · rw [field_of_at? (at?_setValueInt h1) hcell, hm,
          arithmeticValue_pick hd hle hb hc1 hsteps]
      · exact absurd ⟨hty, hv⟩ h.steps
    | geometric a b c f hty hv hbc hc31 hf hpow hprod =>
      obtain ⟨e, hbe, hec, he⟩ := hc.geometric a b c f hty hv
      refine ⟨e, fun d i s s' cell' hd hs hcell => ⟨fun _ => ?_, fun h => by omega⟩⟩
      rw [selectValue_geometric hty hv] at hs
      obtain ⟨ir, h1, hs⟩ := bind_eq_ok.1 hs
      cases hs
      rw [field_of_at? (at?_setValueInt h1) hcell, he,
        geometricValue_pick hd hbe hec hc31 hf hpow hprod]
    | texts hty hne =>
      obtain ⟨k, hk, he⟩ := List.getElem_of_mem (hc.texts hty)
      refine ⟨k, fun d i s s' cell' hd hs hcell => ⟨fun h => by omega, fun _ => ?_⟩⟩
      unfold selectValue at hs
      rw [hty] at hs
      obtain ⟨text, htext, hs⟩ := bind_eq_ok.1 hs
      obtain ⟨ir, h1, hs⟩ := bind_eq_ok.1 hs
      cases hs
      rw [rd_eq_ok, hd 0 _ (Nat.zero_le k) hk, at?_natCast, List.getElem?_eq_getElem hk] at htext
      rw [field_of_at? (at?_setValueChar h1) hcell, ← he]
      exact (Option.some.inj htext).symm
  · refine ⟨0, fun d i s s' cell' _ hs hcell => ⟨fun hty => ?_, fun hty => ?_⟩⟩
    · exact absurd (hty.imp id .inl) hdraws
    · rcases hty with hty | hty
      · rw [hc.text hty]
        exact Drawable.text hty ⟨d, i, s, s', cell', hs, hcell, rfl, rfl⟩
      · exact absurd (.inr (.inr hty)) hdraws

/-! ## The loop -/

/-- The number of draws before the turn of node `k`. -/
def drawPos (t : List ArgNode) (k : Nat) : Nat := (t.take k).countP fun node => DrawsValue node

theorem drawPos_succ {k : Nat} (hn : at? t k = some node) :
    drawPos t (k + 1) = if DrawsValue node then drawPos t k + 1 else drawPos t k := by
  rw [at?_natCast] at hn
  obtain ⟨hk, rfl⟩ := List.getElem?_eq_some_iff.1 hn
  unfold drawPos
  rw [List.take_add_one, List.getElem?_eq_getElem hk, Option.toList_some, List.countP_append,
    List.countP_singleton]
  by_cases h : DrawsValue t[k]
  · rw [if_pos h, if_pos (decide_eq_true h)]
  · rw [if_neg h, if_neg (by simpa using h), Nat.add_zero]

theorem drawPos_mono {j k : Nat} (h : j ≤ k) : drawPos t j ≤ drawPos t k :=
  (List.take_sublist_take_left h).countP_le

theorem drawPos_lt {j k : Nat} (hn : at? t j = some node) (hd : DrawsValue node) (h : j < k) :
    drawPos t j < drawPos t k := by
  have hsucc := drawPos_succ hn
  rw [if_pos hd] at hsucc
  have := drawPos_mono (t := t) (show j + 1 ≤ k from h)
  omega

theorem select_pos {k : Nat} {ir : List Ir} {s : Run}
    (h : forUpto k (selectStep d t bitmap) ⟨ir, 0⟩ = .ok s) : s.pos = drawPos t k := by
  refine forUpto_inv (fun k s => s.pos = drawPos t k) rfl ?_ h
  intro i s1 s2 hi hI hb
  obtain ⟨byte, -, hb⟩ := bind_eq_ok.1 hb
  obtain ⟨ir1, -, hb⟩ := bind_eq_ok.1 hb
  obtain ⟨node, hn, hb⟩ := bind_eq_ok.1 hb
  have hpos := (selectValue_put hb).2
  rw [hpos, drawPos_succ (rd_eq_ok.1 hn)]
  simp only [hI]

theorem select_cells {n : Nat} {P : Int → ArgNode → Ir → Prop} {ir : List Ir}
    {s : Run}
    (hturn : ∀ (k : Nat) (node : ArgNode) (s1 s2 : Run) (cell : Ir), k < n →
      at? t k = some node → s1.pos = drawPos t k → selectValue d node k s1 = .ok s2 →
      at? s2.ir k = some cell → P k node cell)
    (h : forUpto n (selectStep d t bitmap) ⟨ir, 0⟩ = .ok s) :
    ∀ i node cell, 0 ≤ i → i < (n : Int) → at? t i = some node → at? s.ir i = some cell →
      P i node cell := by
  have hI := forUpto_inv (fun k s => forUpto k (selectStep d t bitmap) ⟨ir, 0⟩ = .ok s ∧
    ∀ i node cell, 0 ≤ i → i < (k : Int) → at? t i = some node → at? s.ir i = some cell →
      P i node cell) ⟨rfl, fun i _ _ h0 h1 => by omega⟩ ?_ h
  · exact hI.2
  · rintro k s1 s2 hk ⟨hrun, hI⟩ hb
    refine ⟨bind_eq_ok.2 ⟨s1, hrun, hb⟩, fun i node cell h0 h1 hn' hc => ?_⟩
    by_cases hik : i = k
    · subst hik
      obtain ⟨byte, -, hb⟩ := bind_eq_ok.1 hb
      obtain ⟨ir1, -, hb⟩ := bind_eq_ok.1 hb
      obtain ⟨node', hn1, hb⟩ := bind_eq_ok.1 hb
      rw [rd_eq_ok, hn'] at hn1
      cases hn1
      have hpos : s1.pos = drawPos t k := select_pos hrun
      exact hturn k node ⟨ir1, s1.pos⟩ s2 cell hk hn' hpos hb hc
    · rw [selectStep_frame hb hik] at hc
      exact hI i node cell h0 (by omega) hn' hc

/-- **After the first loop every value is documented.** -/
theorem select_documented (hdoc : ∀ node ∈ t, NodeDoc node) {ir : List Ir} {s : Run}
    (h : forUpto t.length (selectStep d t bitmap) ⟨ir, 0⟩ = .ok s) :
    ∀ i node cell, at? t i = some node → at? s.ir i = some cell → Documented node cell := by
  intro i node cell hn hc
  obtain ⟨h0, h1⟩ := range_of_at? hn
  refine select_cells (P := fun _ node cell => Documented node cell) ?_ h i node cell h0 h1 hn hc
  intro k node s1 s2 cell _ hn _ hs hc
  exact (hdoc node (mem_of_at? hn)).documented ⟨d, k, s1, s2, cell, hs, hc, rfl, rfl⟩

/-- **Any documented values can be drawn together.** -/
theorem exists_picks (hdoc : ∀ node ∈ t, NodeDoc node) {wanted : Int → Ir → Prop}
    (hw : ∀ i node cell, at? t i = some node → wanted i cell → Documented node cell)
    (huniq : ∀ i cell cell', wanted i cell → wanted i cell' → cell = cell') :
    ∃ v : Nat → Nat, ∀ (d : Draws) (bitmap : List Nat) (ir : List Ir) (s : Run),
      (∀ k, d.Picks k (v k)) → forUpto t.length (selectStep d t bitmap) ⟨ir, 0⟩ = .ok s →
      ∀ i node cell cell', at? t i = some node → wanted i cell → at? s.ir i = some cell' →
        SameValue node cell' cell := by
  have hpick : ∀ k : Nat, ∃ v, ∀ node cell, at? t k = some node → wanted k cell →
      ∀ (d : Draws) (s s' : Run) (cell' : Ir), d.Picks s.pos v →
        selectValue d node k s = .ok s' → at? s'.ir k = some cell' →
        SameValue node cell' cell := by
    intro k
    by_cases hex : ∃ node cell, at? t k = some node ∧ wanted k cell
    · obtain ⟨node, cell, hn, hc⟩ := hex
      obtain ⟨v, hv⟩ := (hdoc node (mem_of_at? hn)).exists_pick (hw k node cell hn hc)
      refine ⟨v, fun node' cell1 hn' hc1 d s s' cell' => ?_⟩
      rw [hn] at hn'
      cases hn'
      rw [huniq k cell1 cell hc1 hc]
      exact hv d k s s' cell'
    · exact ⟨0, fun node cell hn hc => absurd ⟨node, cell, hn, hc⟩ hex⟩
  obtain ⟨pick, hpick⟩ := Classical.axiom_of_choice hpick
  let drawing : Set Nat := {k | ∃ node, at? t k = some node ∧ DrawsValue node}
  have hinj : Set.InjOn (drawPos t) drawing := by
    rintro j ⟨nj, hj, hdj⟩ k ⟨nk, hk, hdk⟩ he
    rcases Nat.lt_trichotomy j k with h | h | h
    · have := drawPos_lt hj hdj h
      omega
    · exact h
    · have := drawPos_lt hk hdk h
      omega
  refine ⟨fun p => pick (Function.invFunOn (drawPos t) drawing p), fun d bitmap ir s hd h => ?_⟩
  intro i node cell cell' hn hc hc'
  obtain ⟨h0, h1⟩ := range_of_at? hn
  refine select_cells (P := fun i node cell' => wanted i cell → SameValue node cell' cell)
    ?_ h i node cell' h0 h1 hn hc' hc
  intro k node s1 s2 cell' _ hn hpos hs hc' hc
  by_cases hdraws : DrawsValue node
  · refine hpick k node cell hn hc d s1 s2 cell' ?_ hs hc'
    have hinv : Function.invFunOn (drawPos t) drawing (drawPos t k) = k :=
      hinj.leftInvOn_invFunOn ⟨node, hn, hdraws⟩
    have hpk : d.Picks s1.pos (pick (Function.invFunOn (drawPos t) drawing s1.pos)) := hd s1.pos
    rw [hpos, hinv] at hpk
    rwa [hpos]
  · refine ⟨fun hty => absurd (hty.imp id .inl) hdraws, fun hty => ?_⟩
    rcases hty with hty | hty
    · rw [(hw k node cell hn hc).text hty]
      exact Drawable.text hty ⟨d, k, s1, s2, cell', hs, hc', rfl, rfl⟩
    · exact absurd (.inr (.inr hty)) hdraws

/-! ## The iterations keep the values -/

def valuesOf (ir : List Ir) (i : Int) : Option (Nat × String) :=
  (at? ir i).map fun cell => (cell.valueInt, cell.valueChar)

theorem valuesOf_setEnable {ir ir' : List Ir} {i v : Int} (h : setEnable ir i v = .ok ir') :
    valuesOf ir' = valuesOf ir := by
  obtain ⟨cell, hc, rfl⟩ := setEnable_eq_ok.1 h
  funext j
  unfold valuesOf
  rw [at?_put _ hc]
  by_cases hj : j = i
  · simp [hj, hc]
  · simp [hj]

theorem pruneMutex_values {l : List Int} {i : Int} {s s' : Run}
    (h : pruneMutex d l i s = .ok s') : valuesOf s'.ir = valuesOf s.ir := by
  obtain ⟨tmp, -, h⟩ := bind_eq_ok.1 h
  obtain ⟨m0, -, h⟩ := bind_eq_ok.1 h
  obtain ⟨m1, -, h⟩ := bind_eq_ok.1 h
  obtain ⟨ir, h2, h⟩ := bind_eq_ok.1 h
  cases h
  refine forUpto_inv (fun _ ir => valuesOf ir = valuesOf s.ir) rfl ?_ h2
  intro j ir1 ir2 _ hI hb
  obtain ⟨m, -, hb⟩ := bind_eq_ok.1 hb
  cases m with
  | none => cases hb
  | some m => rw [valuesOf_setEnable hb, hI]

theorem firstStep_values {j : Nat} {s s' : Run} (h : firstStep d t j s = .ok s') :
    valuesOf s'.ir = valuesOf s.ir := by
  obtain ⟨cell, -, h⟩ := bind_eq_ok.1 h
  split at h
  · obtain ⟨node, -, h⟩ := bind_eq_ok.1 h
    split at h
    · obtain ⟨ir, h1, h⟩ := bind_eq_ok.1 h
      cases h
      exact valuesOf_setEnable h1
    · cases h
      rfl
  · obtain ⟨node, -, h⟩ := bind_eq_ok.1 h
    split at h
    · exact pruneMutex_values h
    · cases h
      rfl
  · cases h
    rfl

theorem enableDependency_values : ∀ {fuel : Nat} {ir ir' : List Ir} {id : Int},
    enableDependency t fuel ir id = .ok ir' → valuesOf ir' = valuesOf ir
  | 0, _, _, _, h => by cases h
  | fuel + 1, ir, ir', id, h => by
    rcases enableDependency_cases h with ⟨rfl, -⟩ | ⟨p, ir1, -, -, -, h1, h⟩
    · rfl
    · rw [enableDependency_values h, valuesOf_setEnable h1]

theorem enableDependant_values : ∀ {fuel : Nat} {s s' : Run} {id : Int},
    enableDependant d t fuel s id = .ok s' → valuesOf s'.ir = valuesOf s.ir
  | 0, _, _, _, h => by cases h
  | fuel + 1, s, s', id, h => by
    rcases enableDependant_cases h with ⟨rfl, -⟩ | ⟨c, ir1, -, -, -, -, h1, h⟩
    · rfl
    · rw [enableDependant_values h, valuesOf_setEnable h1]

theorem firstPass_values {n : Nat} {s s' : Run} (h : forUpto n (firstStep d t) s = .ok s') :
    valuesOf s'.ir = valuesOf s.ir :=
  forUpto_inv (fun _ s1 => valuesOf s1.ir = valuesOf s.ir) rfl
    (fun _ _ _ _ hI hb => (firstStep_values hb).trans hI) h

theorem secondPass_values {n : Nat} {s s' : Run} (h : secondPass d t n s = .ok s') :
    valuesOf s'.ir = valuesOf s.ir := by
  refine forUpto_inv (fun _ s1 => valuesOf s1.ir = valuesOf s.ir) rfl ?_ h
  intro k s1 s2 _ hI hb
  obtain ⟨ir1, h1, h2⟩ := bind_eq_ok.1 hb
  rw [enableDependant_values h2]
  exact (enableDependency_values h1).trans hI

end

end ConFuzz
