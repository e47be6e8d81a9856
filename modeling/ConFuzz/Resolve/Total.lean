import ConFuzz.Resolve.Select
import ConFuzz.Resolve.Steps

/-!
# Runs that reach the emission loop

`TableOK` is what `arg_fuzz` takes for granted of its table: the listed ids are
nodes of the table and the value lists have the documented form. On such a table
no step of the three loops faults, and the recursions of the second one never
use up their bound: `offCount`, the number of nodes whose `enable` is not 1,
drops at every call. All that the recursions do is turn nodes on
(`OnlyEnables`).
-/

namespace ConFuzz

open ConFuzz.CLib ConFuzz.Config

/-- A value list of the documented form: `[a, b, c]` with a step `c`, `[a, b, c, d]`, or
a choice of strings. -/
structure ValueOK (node : ArgNode) : Prop where
  arithmetic : node.valueType = 1 → 3 ≤ node.valueInt.length ∧ node.valueInt[2]? ≠ some 0
  geometric : node.valueType = 2 → 4 ≤ node.valueInt.length
  strings : node.valueType = 4 → node.valueCharArray ≠ []

instance (node : ArgNode) : Decidable (ValueOK node) :=
  decidable_of_iff
    ((node.valueType = 1 → 3 ≤ node.valueInt.length ∧ node.valueInt[2]? ≠ some 0) ∧
      (node.valueType = 2 → 4 ≤ node.valueInt.length) ∧
      (node.valueType = 4 → node.valueCharArray ≠ []))
    ⟨fun ⟨h1, h2, h3⟩ => ⟨h1, h2, h3⟩, fun ⟨h1, h2, h3⟩ => ⟨h1, h2, h3⟩⟩

/-- A table whose ids and values are in order. -/
structure TableOK (t : List ArgNode) : Prop where
  mutex : ∀ node ∈ t, ∀ m ∈ node.mutex.getD [], InTable t m
  dep : ∀ node ∈ t, ∀ m ∈ node.dependencyId, InTable t m
  child : ∀ node ∈ t, ∀ m ∈ node.childId, InTable t m
  value : ∀ node ∈ t, ValueOK node

/-- The second iteration reads ids only where they are dependencies or children. -/
structure LinksOK (t : List ArgNode) : Prop where
  dep : ∀ node ∈ t, ∀ m ∈ node.dependencyId, InTable t m
  child : ∀ node ∈ t, ∀ m ∈ node.childId, InTable t m

theorem TableOK.links {t : List ArgNode} (h : TableOK t) : LinksOK t := ⟨h.dep, h.child⟩

instance (t : List ArgNode) : Decidable (TableOK t) :=
  decidable_of_iff
    ((∀ node ∈ t, ∀ m ∈ node.mutex.getD [], InTable t m) ∧
      (∀ node ∈ t, ∀ m ∈ node.dependencyId, InTable t m) ∧
      (∀ node ∈ t, ∀ m ∈ node.childId, InTable t m) ∧ ∀ node ∈ t, ValueOK node)
    ⟨fun ⟨h1, h2, h3, h4⟩ => ⟨h1, h2, h3, h4⟩, fun ⟨h1, h2, h3, h4⟩ => ⟨h1, h2, h3, h4⟩⟩

section

variable {d : Draws} {t : List ArgNode} {i : Int}

theorem at?_of_inTable {α : Type} {l : List α} (hi : InTable t i) (hl : l.length = t.length) :
    ∃ a, at? l i = some a :=
  at?_of_mem_range hi.1 (by rw [hl]; exact hi.2)

/-! ## The second iteration -/

theorem firstWith_total {ir : List Ir} {v : Int} (hl : ir.length = t.length) : ∀ {l : List Int},
    (∀ m ∈ l, InTable t m) → ∃ r, firstWith ir v l = .ok r
  | [], _ => ⟨none, rfl⟩
  | m :: l, h => by
    obtain ⟨cell, hc⟩ := at?_of_inTable (h m List.mem_cons_self) hl
    unfold firstWith
    rw [rd_eq_ok.2 hc, ok_bind]
    split
    · exact ⟨some m, rfl⟩
    · exact firstWith_total hl fun m' hm' => h m' (List.mem_cons_of_mem _ hm')

def offCount (ir : List Ir) : Nat := ir.countP (fun cell => cell.enable ≠ 1)

theorem offCount_le (ir : List Ir) : offCount ir ≤ ir.length := List.countP_le_length

theorem offCount_setEnable {ir ir' : List Ir} (hne : ¬ On ir i)
    (h : setEnable ir i 1 = .ok ir') : offCount ir' < offCount ir := by
  obtain ⟨cell, hc, rfl⟩ := setEnable_eq_ok.1 h
  exact countP_put_lt hc
    (decide_eq_true fun he => hne (enableOf_eq_some.2 ⟨cell, hc, he⟩)) (decide_eq_false (by simp))

theorem enableDependency_total (ht : ∀ node ∈ t, ∀ m ∈ node.dependencyId, InTable t m) :
    ∀ {fuel : Nat} {ir : List Ir} {id : Int},
    ir.length = t.length → InTable t id → offCount ir < fuel →
    ∃ ir', enableDependency t fuel ir id = .ok ir' ∧ ir'.length = t.length
  | 0, _, _, _, _, hf => absurd hf (Nat.not_lt_zero _)
  | fuel + 1, ir, id, hl, hid, hf => by
    obtain ⟨node, hn⟩ := at?_of_inTable hid rfl
    obtain ⟨cell, hc⟩ := at?_of_inTable hid hl
    have hdep := ht node (mem_of_at? hn)
    unfold enableDependency
    rw [rd_eq_ok.2 hn, ok_bind, rd_eq_ok.2 hc, ok_bind]
    split
    · obtain ⟨r, hr⟩ := firstWith_total (v := 0) hl hdep
      rw [hr, ok_bind]
      cases r with
      | none => exact ⟨ir, rfl, hl⟩
      | some p =>
        obtain ⟨hp, h0⟩ := firstWith_some hr
        obtain ⟨hp0, hp1⟩ := hdep p hp
        obtain ⟨ir1, h1⟩ := setEnable_total 1 hp0 (by rw [hl]; exact hp1)
        have hoff : ¬ On ir p := fun hon => by rw [On, h0] at hon; cases hon
        have hlt := offCount_setEnable hoff h1
        simp only [h1, ok_bind]
        exact enableDependency_total ht ((length_setEnable h1).trans hl) ⟨hp0, hp1⟩ (by omega)
    · exact ⟨ir, rfl, hl⟩

theorem enableDependant_total (ht : LinksOK t) : ∀ {fuel : Nat} {s : Run} {id : Int},
    s.ir.length = t.length → InTable t id → offCount s.ir < fuel →
    ∃ s', enableDependant d t fuel s id = .ok s' ∧ s'.ir.length = t.length
  | 0, _, _, _, _, hf => absurd hf (Nat.not_lt_zero _)
  | fuel + 1, s, id, hl, hid, hf => by
    obtain ⟨node, hn⟩ := at?_of_inTable hid rfl
    obtain ⟨cell, hc⟩ := at?_of_inTable hid hl
    have hchild := ht.child node (mem_of_at? hn)
    unfold enableDependant
    rw [rd_eq_ok.2 hn, ok_bind, rd_eq_ok.2 hc, ok_bind]
    split
    · rename_i hcond
      obtain ⟨r, hr⟩ := firstWith_total (v := 1) hl hchild
      rw [hr, ok_bind]
      cases r with
      | some c => exact ⟨s, rfl, hl⟩
      | none =>
        have hlen : 0 < node.childId.length := List.length_pos_iff.2 hcond.2.1
        have hk := d.randNum_mem s.pos 0 node.childId.length hlen
        obtain ⟨c, hg⟩ := at?_of_mem_range (l := node.childId)
          (i := d.randNum s.pos 0 node.childId.length) (by omega) (by omega)
        obtain ⟨hc0, hc1⟩ := hchild c (mem_of_at? hg)
        obtain ⟨ir1, h1⟩ := setEnable_total 1 hc0 (by rw [hl]; exact hc1)
        have hoff : ¬ On s.ir c := fun hon => by
          obtain ⟨w, hw, hne⟩ := firstWith_none hr c (mem_of_at? hg)
          rw [On, hw] at hon
          exact hne (Option.some.inj hon)
        have hlt := offCount_setEnable hoff h1
        simp only [rd_eq_ok.2 hg, h1, ok_bind]
        exact enableDependant_total ht (s := ⟨ir1, s.pos + 1⟩) ((length_setEnable h1).trans hl)
          ⟨hc0, hc1⟩ (by simp only; omega)
    · exact ⟨s, rfl, hl⟩

/-- What a recursion from `id` may do to the array: turn nodes on. -/
structure OnlyEnables (id : Int) (ir ir' : List Ir) : Prop where
  keeps : ∀ j, On ir j → On ir' j
  changed : ∀ j, enableOf ir' j ≠ enableOf ir j → On ir' j
  start : ¬ On ir id → ir' = ir

theorem OnlyEnables.of_moves {id : Int} {ir ir' : List Ir}
    (h : Moves (graphOf t) (enableOf ir) (enableOf ir')) (hstart : ¬ On ir id → ir' = ir) :
    OnlyEnables id ir ir' :=
  ⟨fun _ hj => h.on hj, fun j hj => (h.same_or_on j).resolve_left hj, hstart⟩

theorem enableDependency_not_on {fuel : Nat} {ir ir' : List Ir} {id : Int} (hoff : ¬ On ir id)
    (h : enableDependency t (fuel + 1) ir id = .ok ir') : ir' = ir := by
  rcases enableDependency_cases h with ⟨rfl, -⟩ | ⟨p, ir1, hon, -⟩
  · rfl
  · exact absurd hon hoff

theorem enableDependant_not_on {fuel : Nat} {s s' : Run} {id : Int} (hoff : ¬ On s.ir id)
    (h : enableDependant d t (fuel + 1) s id = .ok s') : s' = s := by
  rcases enableDependant_cases h with ⟨rfl, -⟩ | ⟨c, ir1, hon, -⟩
  · rfl
  · exact absurd hon hoff

/-- **The second iteration ends**, on any graph, cyclic or not. -/
theorem secondPass_total (ht : LinksOK t) {s : Run} (hl : s.ir.length = t.length) :
    ∃ s', secondPass d t t.length s = .ok s' ∧ s'.ir.length = t.length := by
  refine forUpto_total (fun _ (s : Run) => s.ir.length = t.length) hl ?_
  intro i s hi hl
  have hid : InTable t i := ⟨by omega, by omega⟩
  obtain ⟨ir1, h1, hl1⟩ := enableDependency_total ht.dep hl hid
    (Nat.lt_succ_of_le (offCount_le s.ir))
  have hf : offCount ir1 < s.ir.length + 1 := by
    have := offCount_le ir1
    omega
  obtain ⟨s2, h2, hl2⟩ := enableDependant_total (d := d) (s := { s with ir := ir1 }) ht hl1 hid hf
  exact ⟨s2, bind_eq_ok.2 ⟨ir1, h1, h2⟩, hl2⟩

/-! ## The first iteration -/

theorem countOn_eq {ir : List Ir} : ∀ {l : List Int} {tmp : Nat},
    (∀ m ∈ l, 0 ≤ m ∧ m < ir.length) → countOn ir l tmp = .ok (tmp + l.countP fun m => On ir m)
  | [], tmp, _ => rfl
  | m :: l, tmp, h => by
    obtain ⟨h0, h1⟩ := h m List.mem_cons_self
    obtain ⟨cell, hc⟩ := at?_of_mem_range h0 h1
    have hon : On ir m ↔ cell.enable = 1 := by simp [On, enableOf, hc]
    unfold countOn
    rw [rd_eq_ok.2 hc, ok_bind, countOn_eq fun m' hm' => h m' (List.mem_cons_of_mem m hm')]
    by_cases h1 : cell.enable = 1
    · rw [if_pos h1, List.countP_cons_of_pos (by simpa using hon.2 h1)]
      congr 1
      omega
    · rw [if_neg h1, List.countP_cons_of_neg (by simpa [hon] using h1)]

theorem collectOn_off {ir : List Ir} {mutex : List (Option Int)} : ∀ {l : List Int} {j : Nat},
    (∀ m ∈ l, 0 ≤ m ∧ m < ir.length) → (∀ m ∈ l, ¬ On ir m) →
      collectOn ir l j mutex = .ok mutex
  | [], _, _, _ => rfl
  | m :: l, j, hrange, hoff => by
    obtain ⟨h0, h1⟩ := hrange m List.mem_cons_self
    obtain ⟨cell, hc⟩ := at?_of_mem_range h0 h1
    have hne : cell.enable ≠ 1 := fun he =>
      hoff m List.mem_cons_self (enableOf_eq_some.2 ⟨cell, hc, he⟩)
    unfold collectOn
    rw [rd_eq_ok.2 hc, ok_bind, if_neg hne, pure_eq_ok, ok_bind]
    exact collectOn_off (fun m' hm' => hrange m' (List.mem_cons_of_mem m hm'))
      fun m' hm' => hoff m' (List.mem_cons_of_mem m hm')

theorem pruneMutex_total_none {l : List Int} {s : Run} (hl : s.ir.length = t.length)
    (hi : InTable t i) (hids : ∀ m ∈ l, InTable t m) (hno : ∀ m ∈ l, ¬ On s.ir m) :
    ∃ s', pruneMutex d l i s = .ok s' := by
  have hrange : ∀ m ∈ l, 0 ≤ m ∧ m < s.ir.length := by
    rw [hl]
    exact hids
  have h1 : countOn s.ir l 1 = .ok 1 := by
    rw [countOn_eq hrange, List.countP_eq_zero.2 fun m hm => by simpa using hno m hm]
  have h2 : collectOn s.ir l 0 [some i] = .ok [some i] := collectOn_off hrange hno
  obtain ⟨ir, h3⟩ := setEnable_total 1 hi.1 (by rw [hl]; exact hi.2)
  have h4 : forUpto 1 (survive [some i] (d.randNum s.pos 0 1)) s.ir = .ok ir := by
    rw [randNum_one]
    exact h3
  exact ⟨⟨ir, s.pos + 1⟩, bind_eq_ok.2 ⟨1, h1, bind_eq_ok.2 ⟨[some i], rfl,
    bind_eq_ok.2 ⟨[some i], h2, bind_eq_ok.2 ⟨ir, h4, rfl⟩⟩⟩⟩⟩

theorem pruneMutex_total_pair {b : Int} {s : Run} (hl : s.ir.length = t.length)
    (hi : InTable t i) (hb : InTable t b) (hon : On s.ir b) :
    ∃ s', pruneMutex d [b] i s = .ok s' := by
  obtain ⟨cell, hc, hv⟩ := enableOf_eq_some.1 hon
  obtain ⟨ir1, h1⟩ := setEnable_total (if 0 = d.randNum s.pos 0 2 then 1 else 2) hi.1
    (show i < s.ir.length by rw [hl]; exact hi.2)
  obtain ⟨ir2, h2⟩ := setEnable_total (if 1 = d.randNum s.pos 0 2 then 1 else 2) hb.1
    (show b < ir1.length by rw [length_setEnable h1, hl]; exact hb.2)
  have h3 : forUpto 2 (survive [some i, some b] (d.randNum s.pos 0 2)) s.ir = .ok ir2 := by
    have h4 : forUpto 1 (survive [some i, some b] (d.randNum s.pos 0 2)) s.ir = .ok ir1 := h1
    rw [forUpto_succ, h4]
    exact h2
  have hcount : countOn s.ir [b] 1 = .ok 2 := by
    simp only [countOn, rd_eq_ok.2 hc, ok_bind, hv, ↓reduceIte]
  have hcollect : collectOn s.ir [b] 0 [some i, none] = .ok [some i, some b] := by
    simp only [collectOn, rd_eq_ok.2 hc, ok_bind, hv, ↓reduceIte]
    rfl
  exact ⟨⟨ir2, s.pos + 1⟩, bind_eq_ok.2 ⟨2, hcount, bind_eq_ok.2 ⟨[some i, none], rfl,
    bind_eq_ok.2 ⟨[some i, some b], hcollect, bind_eq_ok.2 ⟨ir2, h3, rfl⟩⟩⟩⟩⟩

theorem pruneMutex_total {l : List Int} {s : Run} (hl : s.ir.length = t.length)
    (hi : InTable t i) (hids : ∀ m ∈ l, InTable t m)
    (hle : l.length ≤ 1 ∨ ∀ m ∈ l, ¬ On s.ir m) : ∃ s', pruneMutex d l i s = .ok s' := by
  by_cases hno : ∀ m ∈ l, ¬ On s.ir m
  · exact pruneMutex_total_none hl hi hids hno
  · rcases hle with hle | h
    · push Not at hno
      obtain ⟨b, hb, hon⟩ := hno
      match l, hle with
      | [c], _ =>
        rw [List.mem_singleton.1 hb] at hon
        exact pruneMutex_total_pair hl hi (hids c List.mem_cons_self) hon
    · exact absurd h hno

theorem length_survive {mutex : List (Option Int)} {k j : Nat} {ir ir' : List Ir}
    (h : survive mutex k j ir = .ok ir') : ir'.length = ir.length := by
  obtain ⟨m, -, h⟩ := bind_eq_ok.1 h
  cases m with
  | none => cases h
  | some m => exact length_setEnable h

theorem length_pruneMutex {l : List Int} {s s' : Run} (h : pruneMutex d l i s = .ok s') :
    s'.ir.length = s.ir.length := by
  obtain ⟨tmp, -, h⟩ := bind_eq_ok.1 h
  obtain ⟨m0, -, h⟩ := bind_eq_ok.1 h
  obtain ⟨m1, -, h⟩ := bind_eq_ok.1 h
  obtain ⟨ir, h2, h⟩ := bind_eq_ok.1 h
  cases h
  exact forUpto_inv (fun _ ir => ir.length = s.ir.length) rfl
    (fun _ _ _ _ hI hb => (length_survive hb).trans hI) h2

theorem firstStep_total (ht : TableOK t) {j : Nat} {s : Run} (hl : s.ir.length = t.length)
    (hj : j < t.length)
    (hle : ((graphOf t).mutex j).length ≤ 1 ∨
      (On s.ir j → ∀ m ∈ (graphOf t).mutex j, ¬ On s.ir m)) :
    ∃ s', firstStep d t j s = .ok s' ∧ s'.ir.length = t.length := by
  have hin : InTable t j := ⟨by omega, by omega⟩
  obtain ⟨node, hn⟩ := at?_of_inTable hin rfl
  obtain ⟨cell, hc⟩ := at?_of_inTable hin hl
  unfold firstStep
  rw [rd_eq_ok.2 hc, ok_bind]
  split
  · rw [rd_eq_ok.2 hn, ok_bind]
    split
    · obtain ⟨ir1, h1⟩ := setEnable_total 1 hin.1 (by rw [hl]; exact hin.2)
      exact ⟨{ s with ir := ir1 }, by simp only [h1, ok_bind]; rfl, (length_setEnable h1).trans hl⟩
    · exact ⟨s, rfl, hl⟩
  · rename_i h1
    have hon : On s.ir j := enableOf_eq_some.2 ⟨cell, hc, h1⟩
    rw [rd_eq_ok.2 hn, ok_bind]
    split
    · rename_i l hm
      have hg : (graphOf t).mutex j = l := by rw [graphOf_mutex hn, hm]; rfl
      rw [hg] at hle
      have hids : ∀ m ∈ l, InTable t m := fun m hml =>
        ht.mutex node (mem_of_at? hn) m (by rw [hm]; exact hml)
      obtain ⟨s', h⟩ := pruneMutex_total (d := d) hl hin hids (hle.imp id fun h => h hon)
      exact ⟨s', h, (length_pruneMutex h).trans hl⟩
    · exact ⟨s, rfl, hl⟩
  · exact ⟨s, rfl, hl⟩

/-! ## The first loop -/

theorem setValueInt_total {ir : List Ir} (v : Nat) (h0 : 0 ≤ i) (h1 : i < ir.length) :
    ∃ ir', setValueInt ir i v = .ok ir' := by
  obtain ⟨cell, hc⟩ := at?_of_mem_range h0 h1
  exact ⟨_, bind_eq_ok.2 ⟨cell, rd_eq_ok.2 hc, wr_eq_ok.2 ⟨⟨cell, hc⟩, rfl⟩⟩⟩

theorem setValueChar_total {ir : List Ir} (v : String) (h0 : 0 ≤ i) (h1 : i < ir.length) :
    ∃ ir', setValueChar ir i v = .ok ir' := by
  obtain ⟨cell, hc⟩ := at?_of_mem_range h0 h1
  exact ⟨_, bind_eq_ok.2 ⟨cell, rd_eq_ok.2 hc, wr_eq_ok.2 ⟨⟨cell, hc⟩, rfl⟩⟩⟩

theorem selectValue_total {node : ArgNode} (hv : ValueOK node) {s : Run} (h0 : 0 ≤ i)
    (h1 : i < s.ir.length) : ∃ s', selectValue d node i s = .ok s' := by
  unfold selectValue
  split
  · rename_i hty
    obtain ⟨hlen, hc0⟩ := hv.arithmetic hty
    obtain ⟨b, hb⟩ := at?_of_mem_range (l := node.valueInt) (i := 1) (by omega) (by omega)
    obtain ⟨a, ha⟩ := at?_of_mem_range (l := node.valueInt) (i := 0) (by omega) (by omega)
    obtain ⟨c, hc⟩ := at?_of_mem_range (l := node.valueInt) (i := 2) (by omega) (by omega)
    have hne : c ≠ 0 := fun h => hc0 (by rw [← h]; exact hc)
    rw [rd_eq_ok.2 hb, ok_bind, rd_eq_ok.2 ha, ok_bind, rd_eq_ok.2 hc, ok_bind, if_neg hne]
    obtain ⟨ir', h⟩ := setValueInt_total (toU64 (a + d.randNum s.pos 0
      (toU64 (toInt32 (toInt32 (toU64 (b - a) / c : Nat) + 1))) * c : Nat)) h0 h1
    simp only [h, ok_bind]
    exact ⟨_, rfl⟩
  · rename_i hty
    have hlen := hv.geometric hty
    obtain ⟨lo, hlo⟩ := at?_of_mem_range (l := node.valueInt) (i := 1) (by omega) (by omega)
    obtain ⟨hi, hhi⟩ := at?_of_mem_range (l := node.valueInt) (i := 2) (by omega) (by omega)
    obtain ⟨base, hba⟩ := at?_of_mem_range (l := node.valueInt) (i := 0) (by omega) (by omega)
    obtain ⟨factor, hfa⟩ := at?_of_mem_range (l := node.valueInt) (i := 3) (by omega) (by omega)
    obtain ⟨ir', h⟩ := setValueInt_total (d.powMul base
      (toInt32 (d.randNum s.pos lo (toU64 (hi + 1 : Nat)))) factor) h0 h1
    simp only [rd_eq_ok.2 hlo, rd_eq_ok.2 hhi, rd_eq_ok.2 hba, rd_eq_ok.2 hfa, ok_bind, h]
    exact ⟨_, rfl⟩
  · obtain ⟨ir', h⟩ := setValueChar_total node.valueChar h0 h1
    simp only [h, ok_bind]
    exact ⟨_, rfl⟩
  · rename_i hty
    have hlen : 0 < node.valueCharArray.length := List.length_pos_iff.2 (hv.strings hty)
    have hk := d.randNum_mem s.pos 0 node.valueCharArray.length hlen
    obtain ⟨text, hg⟩ := at?_of_mem_range (l := node.valueCharArray)
      (i := d.randNum s.pos 0 node.valueCharArray.length) (by omega) (by omega)
    obtain ⟨ir', h⟩ := setValueChar_total text h0 h1
    simp only [rd_eq_ok.2 hg, ok_bind, h]
    exact ⟨_, rfl⟩
  · exact ⟨s, rfl⟩

theorem selectStep_eq {bitmap : List Nat} {j : Nat} {s : Run} {node : ArgNode}
    (hl : s.ir.length = t.length) (hn : at? t j = some node) (hb : t.length ≤ bitmap.length) :
    ∃ ir', ir'.length = t.length ∧
      selectStep d t bitmap j s = selectValue d node j { s with ir := ir' } := by
  obtain ⟨h0, hj⟩ := range_of_at? hn
  obtain ⟨byte, hby⟩ := at?_of_mem_range (l := bitmap) (i := j) h0 (by omega)
  have hset : ∃ ir', (if byte % 2 = 0 then setEnable s.ir j 1 else pure s.ir) = .ok ir' ∧
      ir'.length = t.length := by
    split
    · obtain ⟨ir', h⟩ := setEnable_total 1 h0 (show (j : Int) < s.ir.length by omega)
      exact ⟨ir', h, (length_setEnable h).trans hl⟩
    · exact ⟨s.ir, rfl, hl⟩
  obtain ⟨ir', h1, hl1⟩ := hset
  refine ⟨ir', hl1, ?_⟩
  unfold selectStep
  rw [rd_eq_ok.2 hby, ok_bind, h1, ok_bind, rd_eq_ok.2 hn, ok_bind]

theorem selectStep_total {bitmap : List Nat} {j : Nat} {s : Run} {node : ArgNode}
    (hl : s.ir.length = t.length) (hn : at? t j = some node) (hv : ValueOK node)
    (hb : t.length ≤ bitmap.length) :
    ∃ s', selectStep d t bitmap j s = .ok s' ∧ s'.ir.length = t.length := by
  obtain ⟨h0, hj⟩ := range_of_at? hn
  obtain ⟨ir', hl1, heq⟩ := selectStep_eq (d := d) hl hn hb
  obtain ⟨s', h2⟩ := selectValue_total (d := d) (s := { s with ir := ir' }) hv h0
    (by simp only; omega)
  exact ⟨s', heq.trans h2, (selectValue_frame h2).2.trans hl1⟩

theorem select_total (ht : TableOK t) {bitmap : List Nat} {ir : List Ir}
    (hl : ir.length = t.length) (hb : t.length ≤ bitmap.length) :
    ∃ s, forUpto t.length (selectStep d t bitmap) ⟨ir, 0⟩ = .ok s ∧ s.ir.length = t.length :=
  forUpto_total (fun _ (s : Run) => s.ir.length = t.length) hl fun i s hi hI => by
    obtain ⟨node, hn⟩ := at?_of_mem_range (l := t) (i := i) (by omega) (by omega)
    exact selectStep_total hI hn (ht.value node (mem_of_at? hn)) hb

/-! ## All three -/

/-- A level-0 run cut at its three loops. -/
theorem atEmission_cases {n : Nat} {bitmap : List Nat} {ir : List Ir} {s : Run}
    (h : atEmission d t n bitmap 0 ir = .ok s) :
    ∃ s1 s2, forUpto n (selectStep d t bitmap) ⟨ir, 0⟩ = .ok s1 ∧
      forUpto n (firstStep d t) s1 = .ok s2 ∧ secondPass d t n s2 = .ok s := by
  obtain ⟨s1, h1, h⟩ := bind_eq_ok.1 h
  rw [if_pos rfl] at h
  obtain ⟨s2, h2, h3⟩ := bind_eq_ok.1 h
  exact ⟨s1, s2, h1, h2, h3⟩

/-- **A level-0 run reaches the emission loop** when no conflict list has two entries. -/
theorem atEmission_total (ht : TableOK t) (hle : ∀ i, ((graphOf t).mutex i).length ≤ 1)
    {bitmap : List Nat} {ir : List Ir} (hl : ir.length = t.length)
    (hb : t.length ≤ bitmap.length) :
    ∃ s, atEmission d t t.length bitmap 0 ir = .ok s ∧ s.ir.length = t.length := by
  obtain ⟨s1, h1, hl1⟩ := select_total (d := d) ht hl hb
  obtain ⟨s2, h2, hl2⟩ := forUpto_total (n := t.length)
    (fun _ (s : Run) => s.ir.length = t.length) hl1
    fun i s hi hI => firstStep_total (d := d) ht hI hi (.inl (hle i))
  obtain ⟨s3, h3, hl3⟩ := secondPass_total (d := d) ht.links hl2
  refine ⟨s3, bind_eq_ok.2 ⟨s1, h1, ?_⟩, hl3⟩
  rw [if_pos rfl]
  exact bind_eq_ok.2 ⟨s2, h2, h3⟩

end

/-! ## The recursions -/

/-- **The recursions end and only turn nodes on.** Whatever graphs the dependencies and the
children form, whatever the marks are and whatever is drawn, a bound above the number of nodes
is never used up. A node that is on stays on, a node that changes is on afterwards,
`enable_dependency` changes nodes that are off and no others, and a call at a node that is not
on does nothing. -/
theorem recursions_end_and_enable (t : List ArgNode) (ht : LinksOK t) (d : Draws) (s : Run)
    (hl : s.ir.length = t.length) (id : Int) (hid : InTable t id) (fuel : Nat)
    (hf : t.length < fuel) :
    (∃ ir', enableDependency t fuel s.ir id = .ok ir' ∧ OnlyEnables id s.ir ir' ∧
      ∀ j, enableOf ir' j ≠ enableOf s.ir j → enableOf s.ir j = some 0) ∧
    ∃ s', enableDependant d t fuel s id = .ok s' ∧ OnlyEnables id s.ir s'.ir ∧
      (¬ On s.ir id → s' = s) := by
  have hoff : offCount s.ir < fuel := by
    have := offCount_le s.ir
    omega
  obtain ⟨k, rfl⟩ : ∃ k, fuel = k + 1 := ⟨fuel - 1, by omega⟩
  constructor
  · obtain ⟨ir', h, -⟩ := enableDependency_total ht.dep hl hid hoff
    have hrun := enableDependency_run h
    exact ⟨ir', h, .of_moves hrun.moves fun hon => enableDependency_not_on hon h,
      fun j hj => hrun.off_of_changed hj⟩
  · obtain ⟨s', h, -⟩ := enableDependant_total (d := d) ht hl hid hoff
    have hstart : ¬ On s.ir id → s' = s := fun hon => enableDependant_not_on hon h
    exact ⟨s', h, .of_moves (enableDependant_run h).moves fun hon => by rw [hstart hon], hstart⟩

/-- Two nodes that need each other and have each other, and themselves, as children. -/
def ringTable : List ArgNode :=
  [{ plainNode "-a" with mustChild := true, childId := [0, 1], dependencyId := [1, 0] },
   { plainNode "-b" with mustChild := true, childId := [0, 1, 1], dependencyId := [0] }]

theorem ring_recursions_end :
    (∃ ir', enableDependency ringTable 3 [⟨1, 0, ""⟩, ⟨0, 0, ""⟩] 0 = .ok ir' ∧
      OnlyEnables 0 [⟨1, 0, ""⟩, ⟨0, 0, ""⟩] ir' ∧
      ∀ j, enableOf ir' j ≠ enableOf [⟨1, 0, ""⟩, ⟨0, 0, ""⟩] j →
        enableOf [⟨1, 0, ""⟩, ⟨0, 0, ""⟩] j = some 0) ∧
    ∃ s', enableDependant .least ringTable 3 ⟨[⟨1, 0, ""⟩, ⟨0, 0, ""⟩], 0⟩ 0 = .ok s' ∧
      OnlyEnables 0 [⟨1, 0, ""⟩, ⟨0, 0, ""⟩] s'.ir ∧
      (¬ On [⟨1, 0, ""⟩, ⟨0, 0, ""⟩] 0 → s' = ⟨[⟨1, 0, ""⟩, ⟨0, 0, ""⟩], 0⟩) :=
  recursions_end_and_enable ringTable ⟨by decide, by decide⟩ .least
    ⟨[⟨1, 0, ""⟩, ⟨0, 0, ""⟩], 0⟩ rfl 0 (by decide) 3 (by decide)

end ConFuzz
