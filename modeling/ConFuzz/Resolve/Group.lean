import ConFuzz.Resolve.Total

/-!
# Pruning a group of conflicts

The pruning step counts the listed conflicts that are on, collects them and
rewrites the group. The counter is over the conflicts that are on, while
`mutex[j + 1]` is written at their position in the list, so the temporary array
is filled as it should be exactly when the conflicts that are on come first in
the list (`EnabledFirst`). With one conflict that is always so.
-/

namespace ConFuzz

open ConFuzz.CLib ConFuzz.Config

/-- The conflicts that are on stand before those that are not. -/
def EnabledFirst (ir : List Ir) (l : List Int) : Prop :=
  ∃ on off, l = on ++ off ∧ (∀ m ∈ on, On ir m) ∧ ∀ m ∈ off, ¬ On ir m

/-- A node and its conflicts that are on. -/
def InGroup (ir : List Ir) (i : Int) (l : List Int) (m : Int) : Prop := m = i ∨ m ∈ l ∧ On ir m

/-- One node of a group is on, the others are pruned, and nothing else has changed. -/
structure PrunesGroup (ir : List Ir) (i : Int) (l : List Int) (ir' : List Ir) : Prop where
  survivor : ∃ w, InGroup ir i l w ∧ On ir' w ∧
    ∀ m, InGroup ir i l m → m ≠ w → enableOf ir' m = some 2
  frame : ∀ m, ¬ InGroup ir i l m → enableOf ir' m = enableOf ir m

section

variable {d : Draws} {t : List ArgNode} {ir : List Ir} {i : Int}

/-! ## Counting and collecting -/

/-- A run that collects the conflicts has room for every position that it writes. -/
theorem collectOn_room {mutex mutex' : List (Option Int)} : ∀ {l : List Int} {j : Nat},
    collectOn ir l j mutex = .ok mutex' → ∀ k m, l[k]? = some m → On ir m →
      j + k + 1 < mutex.length
  | [], _, _, k, m, hk, _ => by simp at hk
  | a :: l, j, h, k, m, hk, hm => by
    obtain ⟨cell, hc, h⟩ := bind_eq_ok.1 h
    obtain ⟨mutex1, h1, h⟩ := bind_eq_ok.1 h
    rw [rd_eq_ok] at hc
    have hlen : mutex1.length = mutex.length := by
      split at h1
      · rw [(wr_eq_ok.1 h1).2, length_put]
      · cases h1
        rfl
    cases k with
    | zero =>
      cases hk
      have hon : cell.enable = 1 := by simpa [On, enableOf, hc] using hm
      rw [if_pos hon] at h1
      obtain ⟨⟨x, hx⟩, -⟩ := wr_eq_ok.1 h1
      have := (range_of_at? hx).2
      omega
    | succ k =>
      have := collectOn_room h k m hk hm
      omega

theorem collectOn_first {off : List Int} (hoff : ∀ m ∈ off, ¬ On ir m)
    (hrange : ∀ m ∈ off, 0 ≤ m ∧ m < ir.length) :
    ∀ {on : List Int} {j : Nat} {done : List (Option Int)}, (∀ m ∈ on, On ir m) →
      done.length = j + 1 →
      collectOn ir (on ++ off) j (done ++ List.replicate on.length none) =
        .ok (done ++ on.map some)
  | [], j, done, _, _ => by
    rw [List.nil_append, List.length_nil, List.replicate_zero, List.map_nil, List.append_nil]
    exact collectOn_off hrange hoff
  | m :: on, j, done, hon, hlen => by
    obtain ⟨cell, hc, hv⟩ := enableOf_eq_some.1 (hon m List.mem_cons_self)
    have hwr : wr (done ++ List.replicate (on.length + 1) none) (j + 1 : Nat) (some m) =
        .ok (done ++ [some m] ++ List.replicate on.length none) := by
      refine wr_eq_ok.2 ⟨at?_of_mem_range (by omega) (by simp; omega), ?_⟩
      rw [put, Int.toNat_natCast, List.set_append_right _ _ (by omega), hlen, Nat.sub_self,
        List.replicate_succ, List.set_cons_zero, List.append_assoc]
      rfl
    rw [List.cons_append]
    unfold collectOn
    rw [rd_eq_ok.2 hc, ok_bind, if_pos hv, List.length_cons, hwr, ok_bind,
      collectOn_first hoff hrange (fun m' hm' => hon m' (List.mem_cons_of_mem m hm'))
        (by simp; omega)]
    simp

theorem countOn_first {on off : List Int} (hon : ∀ m ∈ on, On ir m) (hoff : ∀ m ∈ off, ¬ On ir m)
    (hrange : ∀ m ∈ on ++ off, 0 ≤ m ∧ m < ir.length) :
    countOn ir (on ++ off) 1 = .ok (on.length + 1) := by
  have hz : off.countP (fun m => On ir m) = 0 :=
    List.countP_eq_zero.2 fun m hm => by simpa using hoff m hm
  have ho : on.countP (fun m => On ir m) = on.length :=
    List.countP_eq_length.2 fun m hm => by simpa using hon m hm
  rw [countOn_eq hrange, List.countP_append, hz, ho]
  congr 1
  omega

theorem inGroup_first {on off : List Int} (hon : ∀ m ∈ on, On ir m) (hoff : ∀ m ∈ off, ¬ On ir m)
    (m : Int) : InGroup ir i (on ++ off) m ↔ m ∈ i :: on := by
  unfold InGroup
  rw [List.mem_cons, List.mem_append]
  constructor
  · rintro (h | ⟨h | h, hm⟩)
    · exact .inl h
    · exact .inr h
    · exact absurd hm (hoff m h)
  · rintro (h | h)
    · exact .inl h
    · exact .inr ⟨.inl h, hon m h⟩

/-! ## Rewriting the group -/

/-- The marks after the first `n` entries of the group `ms` have been rewritten. -/
structure SurvivedAt (ir : List Ir) (ms : List Int) (k n : Nat) (ir' : List Ir) : Prop where
  length : ir'.length = ir.length
  done : ∀ j m, j < n → ms[j]? = some m → enableOf ir' m = some (if j = k then 1 else 2)
  frame : ∀ m, (∀ j, j < n → ms[j]? ≠ some m) → enableOf ir' m = enableOf ir m

theorem SurvivedAt.step {ms : List Int} {k n : Nat} {ir1 : List Ir} (hnd : ms.Nodup)
    (hrange : ∀ m ∈ ms, 0 ≤ m ∧ m < ir.length) (hn : n < ms.length)
    (hI : SurvivedAt ir ms k n ir1) :
    ∃ ir2, survive (ms.map some) k n ir1 = .ok ir2 ∧ SurvivedAt ir ms k (n + 1) ir2 := by
  have hget : ms[n]? = some ms[n] := List.getElem?_eq_getElem hn
  obtain ⟨h0, h1⟩ := hrange ms[n] (List.getElem_mem hn)
  obtain ⟨ir2, h2⟩ := setEnable_total (if n = k then 1 else 2) h0
    (show ms[n] < ir1.length by rw [hI.length]; exact h1)
  have hrd : rd (ms.map some) n = .ok (some ms[n]) := by
    rw [rd_eq_ok, at?_natCast, List.getElem?_map, hget]
    rfl
  refine ⟨ir2, by unfold survive; rw [hrd]; exact h2, (length_setEnable h2).trans hI.length,
    fun j m hj hm => ?_, fun m hm => ?_⟩
  · rw [enableOf_setEnable h2]
    by_cases hjn : j = n
    · subst hjn
      rw [hget] at hm
      cases hm
      rw [Function.update_self]
    · have hne : m ≠ ms[n] := by
        rintro rfl
        exact hjn ((List.getElem?_inj (by omega) hnd).1 (hm.trans hget.symm))
      rw [Function.update_of_ne hne]
      exact hI.done j m (by omega) hm
  · have hne : m ≠ ms[n] := by
      rintro rfl
      exact hm n (Nat.lt_succ_self n) hget
    rw [enableOf_setEnable h2, Function.update_of_ne hne]
    exact hI.frame m fun j hj => hm j (by omega)

/-- The loop over the group leaves one survivor and touches nothing else. -/
theorem survive_loop {ms : List Int} (hnd : ms.Nodup) (hrange : ∀ m ∈ ms, 0 ≤ m ∧ m < ir.length)
    (k : Nat) :
    ∃ ir', forUpto ms.length (survive (ms.map some) k) ir = .ok ir' ∧
      (∀ j m, ms[j]? = some m → enableOf ir' m = some (if j = k then 1 else 2)) ∧
      ∀ m, m ∉ ms → enableOf ir' m = enableOf ir m := by
  obtain ⟨ir', h, hI⟩ : ∃ ir', forUpto ms.length (survive (ms.map some) k) ir = .ok ir' ∧
      SurvivedAt ir ms k ms.length ir' :=
    forUpto_total (SurvivedAt ir ms k)
      ⟨rfl, fun j _ hj => absurd hj (Nat.not_lt_zero j), fun _ _ => rfl⟩
      fun _ _ hn hI => hI.step hnd hrange hn
  refine ⟨ir', h, fun j m hm => ?_, fun m hm => ?_⟩
  · obtain ⟨hj, -⟩ := List.getElem?_eq_some_iff.1 hm
    exact hI.done j m hj hm
  · exact hI.frame m fun j _ hj => hm (List.mem_of_getElem? hj)

/-! ## The step -/

theorem enabledFirst_of_room {l : List Int}
    (h : ∀ k m, l[k]? = some m → On ir m → k < l.countP fun m => On ir m) : EnabledFirst ir l := by
  have hoff : ∀ m ∈ l.drop (l.countP fun m => On ir m), ¬ On ir m := by
    intro m hm hon
    obtain ⟨k, hk⟩ := List.mem_iff_getElem?.1 hm
    rw [List.getElem?_drop] at hk
    have := h _ m hk hon
    omega
  refine ⟨_, _, (List.take_append_drop _ l).symm, fun m hm => ?_, hoff⟩
  -- all of them are counted among the first ones
  have hzero : (l.drop (l.countP fun m => On ir m)).countP (fun m => On ir m) = 0 :=
    List.countP_eq_zero.2 fun m hm => by simpa using hoff m hm
  have hsum : l.countP (fun m => On ir m) =
      (l.take (l.countP fun m => On ir m)).countP (fun m => On ir m) +
        (l.drop (l.countP fun m => On ir m)).countP fun m => On ir m := by
    rw [← List.countP_append, List.take_append_drop]
  rw [hzero] at hsum
  have hlen : (l.take (l.countP fun m => On ir m)).countP (fun m => On ir m) =
      (l.take (l.countP fun m => On ir m)).length := by
    refine Nat.le_antisymm List.countP_le_length ?_
    rw [List.length_take]
    omega
  simpa using List.countP_eq_length.1 hlen m hm

theorem pruneMutex_enabledFirst {l : List Int} {s s' : Run}
    (hrange : ∀ m ∈ l, 0 ≤ m ∧ m < s.ir.length) (h : pruneMutex d l i s = .ok s') :
    EnabledFirst s.ir l := by
  obtain ⟨tmp, ht, h⟩ := bind_eq_ok.1 h
  obtain ⟨m0, h0, h⟩ := bind_eq_ok.1 h
  obtain ⟨m1, h1, -⟩ := bind_eq_ok.1 h
  rw [countOn_eq hrange] at ht
  cases ht
  have hlen : m0.length = 1 + l.countP fun m => On s.ir m := by
    rw [(wr_eq_ok.1 h0).2, length_put, List.length_replicate]
  refine enabledFirst_of_room fun k m hk hm => ?_
  have := collectOn_room h1 k m hk hm
  omega

theorem pruneMutex_prunesGroup {l : List Int} {s : Run} (hnd : l.Nodup) (hil : i ∉ l)
    (hrange : ∀ m ∈ l, 0 ≤ m ∧ m < s.ir.length) (hi : 0 ≤ i ∧ i < s.ir.length)
    (hfirst : EnabledFirst s.ir l) :
    ∃ s', pruneMutex d l i s = .ok s' ∧ PrunesGroup s.ir i l s'.ir := by
  obtain ⟨on, off, rfl, hon, hoff⟩ := hfirst
  have hcount := countOn_first hon hoff hrange
  have hcollect : collectOn s.ir (on ++ off) 0 ([some i] ++ List.replicate on.length none) =
      .ok ((i :: on).map some) :=
    collectOn_first hoff (fun m hm => hrange m (List.mem_append_right on hm)) hon rfl
  have hgroup := inGroup_first (i := i) hon hoff
  have hnd' : (i :: on).Nodup :=
    List.nodup_cons.2 ⟨fun h => hil (List.mem_append_left off h), (List.nodup_append.1 hnd).1⟩
  have hrange' : ∀ m ∈ i :: on, 0 ≤ m ∧ m < s.ir.length := by
    intro m hm
    rcases List.mem_cons.1 hm with rfl | hm
    · exact hi
    · exact hrange m (List.mem_append_left off hm)
  obtain ⟨ir', hir, hdone, hframe⟩ := survive_loop hnd' hrange'
    (d.randNum s.pos 0 (on.length + 1))
  have hk := (d.randNum_mem s.pos 0 (on.length + 1) (Nat.succ_pos _)).2
  have hget : (i :: on)[d.randNum s.pos 0 (on.length + 1)]? =
      some (i :: on)[d.randNum s.pos 0 (on.length + 1)] := List.getElem?_eq_getElem hk
  refine ⟨⟨ir', s.pos + 1⟩, bind_eq_ok.2 ⟨_, hcount, bind_eq_ok.2 ⟨_, rfl,
    bind_eq_ok.2 ⟨_, hcollect, bind_eq_ok.2 ⟨ir', hir, rfl⟩⟩⟩⟩,
    ⟨(i :: on)[d.randNum s.pos 0 (on.length + 1)], ?_, ?_, ?_⟩, ?_⟩
  · exact (hgroup _).2 (List.getElem_mem hk)
  · rw [On, hdone _ _ hget, if_pos rfl]
  · intro m hm hne
    obtain ⟨j, hj⟩ := List.mem_iff_getElem?.1 ((hgroup m).1 hm)
    rw [hdone j m hj, if_neg]
    rintro rfl
    rw [hget] at hj
    exact hne (Option.some.inj hj).symm
  · exact fun m hm => hframe m fun h => hm ((hgroup m).2 h)

end

/-- **When pruning leaves one survivor.** The step ends and leaves one node of the group on
exactly when the conflicts that are on stand first in the list; else it leaves the
temporary array. -/
theorem firstStep_prunesGroup (d : Draws) (t : List ArgNode) (i : Nat) (node : ArgNode)
    (l : List Int) (hn : at? t i = some node) (hm : node.mutex = some l) (hnd : l.Nodup)
    (hil : (i : Int) ∉ l) (s : Run) (hon : On s.ir i)
    (hrange : ∀ m ∈ l, 0 ≤ m ∧ m < s.ir.length) :
    (∃ s', firstStep d t i s = .ok s' ∧ PrunesGroup s.ir i l s'.ir) ↔ EnabledFirst s.ir l := by
  have hstep : firstStep d t i s = pruneMutex d l i s := by
    obtain ⟨cell, hc, hv⟩ := enableOf_eq_some.1 hon
    unfold firstStep
    rw [rd_eq_ok.2 hc, ok_bind, hv]
    simp only [rd_eq_ok.2 hn, ok_bind, hm]
  rw [hstep]
  constructor
  · rintro ⟨s', h, -⟩
    exact pruneMutex_enabledFirst hrange h
  · exact pruneMutex_prunesGroup hnd hil hrange (range_of_enableOf hon)

/-- Three options that exclude each other. -/
def tripleTable : List ArgNode :=
  [{ plainNode "-a" with mutex := some [1, 2] }, { plainNode "-b" with mutex := some [0, 2] },
   { plainNode "-c" with mutex := some [0, 1] }]

/-- The first conflict of `-a` is on and the second is not. -/
theorem triple_prunesGroup : ∃ s', firstStep .greatest tripleTable 0
    ⟨[⟨1, 0, ""⟩, ⟨1, 0, ""⟩, ⟨0, 0, ""⟩], 0⟩ = .ok s' ∧
      PrunesGroup [⟨1, 0, ""⟩, ⟨1, 0, ""⟩, ⟨0, 0, ""⟩] 0 [1, 2] s'.ir :=
  (firstStep_prunesGroup .greatest tripleTable 0 _ [1, 2] rfl rfl (by decide) (by decide)
    ⟨[⟨1, 0, ""⟩, ⟨1, 0, ""⟩, ⟨0, 0, ""⟩], 0⟩ rfl (by decide)).2
    ⟨[1], [2], rfl, by decide, by decide⟩

/-- The second conflict of `-a` is on and the first is not: `mutex[2]` of two. -/
theorem triple_overruns : On [⟨1, 0, ""⟩, ⟨0, 0, ""⟩, ⟨1, 0, ""⟩] 0 ∧
    firstStep .least tripleTable 0 ⟨[⟨1, 0, ""⟩, ⟨0, 0, ""⟩, ⟨1, 0, ""⟩], 0⟩ =
      .error (.outOfBounds 2 2) :=
  ⟨rfl, rfl⟩

end ConFuzz
