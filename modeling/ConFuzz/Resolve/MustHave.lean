import ConFuzz.Resolve.Total

/-!
# Must-haves

The first iteration turns on every must-have it finds off, but it does not look
at `must_have` when it prunes a conflict: a must-have that meets an enabled
conflict is pruned by the draw like any other node, and a pruned node is not
turned on again by its own position in the loop. `SparesMustHaves` says for which
tables and bitmaps no must-have takes part in a pruning.
-/

namespace ConFuzz

open ConFuzz.CLib ConFuzz.Config

/-- No must-have meets its conflict: the later of the two would have to be chosen by
the bitmap, and the earlier one chosen or a must-have. -/
def SparesMustHaves (G : OptGraph Int) (bitmap : List Nat) : Prop :=
  ∀ m b, G.mustHave m = true → b ∈ G.mutex m →
    ¬ (chosen bitmap (max m b) = true ∧
      (chosen bitmap (min m b) = true ∨ G.mustHave (min m b) = true))

section

variable {d : Draws} {t : List ArgNode} {bitmap : List Nat}

/-- The invariant of the first iteration at `k`: a node that is on was chosen or is a
must-have, one still to come was chosen; must-haves behind are on, must-haves
ahead are as the bitmap left them. -/
structure SparedAt (t : List ArgNode) (bitmap : List Nat) (k : Nat) (s : Run) : Prop where
  on : ∀ j, On s.ir j → chosen bitmap j = true ∨ (graphOf t).mustHave j = true
  ahead : ∀ j, (k : Int) ≤ j → On s.ir j → chosen bitmap j = true
  done : ∀ m, (graphOf t).mustHave m = true → m < k → On s.ir m
  todo : ∀ m, (graphOf t).mustHave m = true → (k : Int) ≤ m →
    enableOf s.ir m = some (if chosen bitmap m = true then 1 else 0)

theorem SparedAt.not_mustHave {k : Nat} {s : Run} (hI : SparedAt t bitmap k s)
    (hsymm : ∀ a b, b ∈ (graphOf t).mutex a → a ∈ (graphOf t).mutex b)
    (hsp : SparesMustHaves (graphOf t) bitmap) {b : Int} (hb : (graphOf t).mutex k = [b])
    (hk : On s.ir k) (hbon : On s.ir b) :
    (graphOf t).mustHave k = false ∧ (graphOf t).mustHave b = false := by
  have hbk : b ∈ (graphOf t).mutex k := by rw [hb]; exact List.mem_cons_self
  have hck : chosen bitmap k = true := hI.ahead k (Int.le_refl _) hk
  have hmeet : chosen bitmap (max k b) = true ∧
      (chosen bitmap (min k b) = true ∨ (graphOf t).mustHave (min k b) = true) := by
    rcases Int.le_total k b with h | h
    · rw [Int.max_eq_right h, Int.min_eq_left h]
      exact ⟨hI.ahead b h hbon, .inl hck⟩
    · rw [Int.max_eq_left h, Int.min_eq_right h]
      exact ⟨hck, hI.on b hbon⟩
  constructor
  · by_contra hm
    exact hsp k b (by simpa using hm) hbk hmeet
  · by_contra hm
    refine hsp b k (by simpa using hm) (hsymm k b hbk) ?_
    rw [Int.max_comm, Int.min_comm]
    exact hmeet

/-- A turn keeps the mark of every must-have other than its own node. -/
theorem SparedAt.keeps {k : Nat} {s s' : Run} (hI : SparedAt t bitmap k s)
    (hle : ∀ i, ((graphOf t).mutex i).length ≤ 1)
    (hsymm : ∀ a b, b ∈ (graphOf t).mutex a → a ∈ (graphOf t).mutex b)
    (hsp : SparesMustHaves (graphOf t) bitmap) (h : firstStep d t k s = .ok s') {m : Int}
    (hm : (graphOf t).mustHave m = true) (hmk : m ≠ k) : enableOf s'.ir m = enableOf s.ir m := by
  have hmv := firstStep_move (hle k) h
  by_cases hmem : m ∈ (graphOf t).mutex k
  · have hl := eq_singleton_of_mem (hle k) hmem
    by_cases hon : On s.ir k ∧ On s.ir m
    · have := (hI.not_mustHave hsymm hsp hl hon.1 hon.2).2
      rw [hm] at this
      cases this
    · generalize enableOf s'.ir = e' at hmv
      cases hmv with
      | must => rw [Function.update_of_ne hmk]
      | keep => rfl
      | pruneOther hb hi hbon | pruneSelf hb hi hbon =>
        rw [hl] at hb
        cases hb
        exact absurd ⟨hi, hbon⟩ hon
  · exact hmv.frame hmk hmem

theorem SparedAt.turns_on {k : Nat} {s s' : Run} (hI : SparedAt t bitmap k s)
    (hle : ∀ i, ((graphOf t).mutex i).length ≤ 1)
    (hsymm : ∀ a b, b ∈ (graphOf t).mutex a → a ∈ (graphOf t).mutex b)
    (hsp : SparesMustHaves (graphOf t) bitmap) (h : firstStep d t k s = .ok s')
    (hm : (graphOf t).mustHave k = true) : On s'.ir k := by
  have hv := hI.todo k hm (Int.le_refl _)
  rcases firstStep_cases h with ⟨-, -, he⟩ | ⟨rfl, h0, -⟩ | ⟨hkon, hp⟩
  · rw [On, he, Function.update_self]
  · by_cases hc : chosen bitmap k = true
    · rw [if_pos hc] at hv
      exact hv
    · rw [if_neg hc] at hv
      rw [h0 hv] at hm
      cases hm
  · by_cases hno : ∀ b ∈ (graphOf t).mutex k, ¬ On s.ir b
    · rw [pruneMutex_none hkon hno hp]
      exact hkon
    · push Not at hno
      obtain ⟨b, hb, hbon⟩ := hno
      have := (hI.not_mustHave hsymm hsp (eq_singleton_of_mem (hle k) hb) hkon hbon).1
      rw [hm] at this
      cases this

theorem SparedAt.step {k : Nat} {s s' : Run} (hI : SparedAt t bitmap k s)
    (hle : ∀ i, ((graphOf t).mutex i).length ≤ 1)
    (hsymm : ∀ a b, b ∈ (graphOf t).mutex a → a ∈ (graphOf t).mutex b)
    (hsp : SparesMustHaves (graphOf t) bitmap) (h : firstStep d t k s = .ok s') :
    SparedAt t bitmap (k + 1) s' := by
  have hmv := firstStep_move (hle k) h
  have hon : ∀ j, On s'.ir j → On s.ir j ∨ (j = k ∧ (graphOf t).mustHave k = true) :=
    fun j hj => hmv.on_before hj
  refine ⟨fun j hj => ?_, fun j hkj hj => ?_, fun m hm hmk => ?_, fun m hm hkm => ?_⟩
  · rcases hon j hj with h | ⟨rfl, h⟩
    · exact hI.on j h
    · exact .inr h
  · rcases hon j hj with h | ⟨rfl, -⟩
    · exact hI.ahead j (by omega) h
    · omega
  · by_cases hmk' : m = k
    · subst hmk'
      exact hI.turns_on hle hsymm hsp h hm
    · rw [On, hI.keeps hle hsymm hsp h hm hmk']
      exact hI.done m hm (by omega)
  · rw [hI.keeps hle hsymm hsp h hm (by omega)]
    exact hI.todo m hm (by omega)

theorem SparedAt.start {ir : List Ir} {s : Run} (hl : ir.length = t.length) (h0 : AllOff ir)
    (h : forUpto t.length (selectStep d t bitmap) ⟨ir, 0⟩ = .ok s) : SparedAt t bitmap 0 s := by
  have hm := (select_marks h).1
  have hon : ∀ j, On s.ir j → chosen bitmap j = true := by
    intro j hj
    rw [On, hm j] at hj
    split at hj
    · rename_i hc; exact hc.2.2
    · exact absurd (h0.eq_zero hj) (by decide)
  refine ⟨fun j hj => .inl (hon j hj), fun j _ hj => hon j hj, fun m hm' hlt => ?_,
    fun m hm' _ => ?_⟩
  · have := inTable_of_mustHave hm'
    unfold InTable at this
    omega
  · obtain ⟨h1, h2⟩ := inTable_of_mustHave hm'
    rw [hm m]
    by_cases hc : chosen bitmap m = true
    · rw [if_pos ⟨h1, h2, hc⟩, if_pos hc]
    · rw [if_neg (by tauto), if_neg hc]
      obtain ⟨v, hv⟩ := enableOf_of_range h1 (show m < ir.length by omega)
      rw [hv, h0.eq_zero hv]

/-! ## A must-have that meets its conflict -/

/-- On the way to the meeting of `i` with its conflict `b`: `i` is on, and `b` is on or a
must-have that the loop still turns on. -/
structure MeetingAt (i : Nat) (b : Int) (k : Nat) (s : Run) : Prop where
  self : On s.ir i
  other : (i : Int) ≤ b ∨ b < k → On s.ir b
  pending : (k : Int) ≤ b → b < i → enableOf s.ir b = some 0

theorem not_mem_mutex_of_pair {a b k : Int}
    (hsymm : ∀ a b, b ∈ (graphOf t).mutex a → a ∈ (graphOf t).mutex b)
    (ha : (graphOf t).mutex a = [b]) (hka : k ≠ b) : a ∉ (graphOf t).mutex k := by
  intro hk
  have hak := hsymm k a hk
  rw [ha, List.mem_singleton] at hak
  exact hka hak

theorem MeetingAt.step {i k : Nat} {b : Int} {s s' : Run} (hI : MeetingAt i b k s)
    (hsymm : ∀ a b, b ∈ (graphOf t).mutex a → a ∈ (graphOf t).mutex b)
    (hle : ∀ i, ((graphOf t).mutex i).length ≤ 1) (hi : (graphOf t).mutex i = [b])
    (hbi : (graphOf t).mutex b = [(i : Int)])
    (hmust : b < i → (graphOf t).mustHave b = true) (hki : k < i)
    (h : firstStep d t k s = .ok s') : MeetingAt i b (k + 1) s' := by
  by_cases hkb : (k : Int) = b
  · subst hkb
    have hoff := hI.pending (Int.le_refl _) (by omega)
    rcases firstStep_cases h with ⟨-, -, he⟩ | ⟨-, hno, -⟩ | ⟨hkon, -⟩
    · refine ⟨?_, fun _ => ?_, fun hb _ => absurd hb (by omega)⟩
      · rw [On, he, Function.update_of_ne (by omega)]
        exact hI.self
      · rw [On, he, Function.update_self]
    · have hm := hmust (by omega)
      rw [hno hoff] at hm
      cases hm
    · rw [On, hoff] at hkon
      cases hkon
  · have hmv := firstStep_move (hle k) h
    have hei := hmv.frame (by omega) (not_mem_mutex_of_pair hsymm hi hkb)
    have heb := hmv.frame (Ne.symm hkb) (not_mem_mutex_of_pair hsymm hbi (by omega))
    refine ⟨by rw [On, hei]; exact hI.self, fun hb => ?_, fun hb1 hb2 => ?_⟩
    · rw [On, heb]
      exact hI.other (by omega)
    · rw [heb]
      exact hI.pending (by omega) hb2

theorem MeetingAt.meet {i : Nat} {b m : Int} {s s' : Run} (hI : MeetingAt i b i s)
    (hi : (graphOf t).mutex i = [b])
    (hd : (m = b ∧ ∀ k, d.randNum k 0 2 = 0) ∨ (m = i ∧ m ≠ b ∧ ∀ k, d.randNum k 0 2 = 1))
    (h : firstStep d t i s = .ok s') : enableOf s'.ir m = some 2 := by
  rcases firstStep_pair hi hI.self (hI.other (by omega)) h with ⟨hr, he⟩ | ⟨hr, he⟩
  · rcases hd with ⟨rfl, -⟩ | ⟨-, -, hd⟩
    · rw [he, Function.update_self]
    · rw [hd] at hr
      cases hr
  · rcases hd with ⟨-, hd⟩ | ⟨rfl, hmb, -⟩
    · rw [hd] at hr
      cases hr
    · rw [he, Function.update_of_ne hmb, Function.update_self]

/-- Two conflicting nodes that are both on when the loop comes to the first of them
that was chosen: the draw prunes one of the two for good. -/
theorem firstPass_prunes {i : Nat} {b m : Int} {n : Nat} {s s' : Run}
    (hsymm : ∀ a b, b ∈ (graphOf t).mutex a → a ∈ (graphOf t).mutex b)
    (hle : ∀ i, ((graphOf t).mutex i).length ≤ 1) (hi : (graphOf t).mutex i = [b])
    (hion : On s.ir i) (hbon : (i : Int) ≤ b → On s.ir b)
    (hbmust : b < i → enableOf s.ir b = some 0 ∧ (graphOf t).mustHave b = true)
    (hd : (m = b ∧ ∀ k, d.randNum k 0 2 = 0) ∨ (m = i ∧ m ≠ b ∧ ∀ k, d.randNum k 0 2 = 1))
    (hin : i < n) (h : forUpto n (firstStep d t) s = .ok s') : enableOf s'.ir m = some 2 := by
  have hib : (i : Int) ∈ (graphOf t).mutex b := hsymm i b (by rw [hi]; exact List.mem_cons_self)
  have hbi := eq_singleton_of_mem (hle b) hib
  have hstart : MeetingAt i b 0 s := by
    refine ⟨hion, fun hb => ?_, fun _ hb => (hbmust hb).1⟩
    rcases hb with hb | hb
    · exact hbon hb
    · exact absurd hb (Int.not_lt.2 (inTable_of_mem_mutex hib).1)
  have hI := forUpto_inv
    (fun k (s : Run) => (k ≤ i → MeetingAt i b k s) ∧ (i < k → enableOf s.ir m = some 2))
    ⟨fun _ => hstart, fun hk => absurd hk (by omega)⟩ ?_ h
  · exact hI.2 hin
  · rintro k s1 s2 _ ⟨hbefore, hafter⟩ hstep
    refine ⟨fun hki => ?_, fun hik => ?_⟩
    · exact (hbefore (by omega)).step hsymm hle hi hbi (fun hb => (hbmust hb).2) hki hstep
    · by_cases hki : k = i
      · subst hki
        exact (hbefore (Nat.le_refl _)).meet hi hd hstep
      · exact (firstStep_move (hle k) hstep).pruned (hafter (by omega))

theorem exists_meeting {m b : Int} (hm : (graphOf t).mustHave m = true)
    (hmax : chosen bitmap (max m b) = true)
    (hmin : chosen bitmap (min m b) = true ∨ (graphOf t).mustHave (min m b) = true) :
    ∃ i c, ((i = m ∧ c = b) ∨ (i = b ∧ c = m)) ∧ chosen bitmap i = true ∧
      (i ≤ c → chosen bitmap c = true) ∧
      (c < i → chosen bitmap c = false ∧ (graphOf t).mustHave c = true) := by
  rcases Int.le_total m b with h | h
  · rw [Int.max_eq_right h] at hmax
    rw [Int.min_eq_left h] at hmin
    by_cases hc : chosen bitmap m = true
    · exact ⟨m, b, .inl ⟨rfl, rfl⟩, hc, fun _ => hmax, fun hlt => absurd hlt (by omega)⟩
    · have hne : m ≠ b := by rintro rfl; exact hc hmax
      exact ⟨b, m, .inr ⟨rfl, rfl⟩, hmax, fun hle => absurd hle (by omega),
        fun _ => ⟨by simpa using hc, hm⟩⟩
  · rw [Int.max_eq_left h] at hmax
    rw [Int.min_eq_right h] at hmin
    by_cases hc : chosen bitmap b = true
    · exact ⟨b, m, .inr ⟨rfl, rfl⟩, hc, fun _ => hmax, fun hlt => absurd hlt (by omega)⟩
    · have hne : b ≠ m := by rintro rfl; exact hc hmax
      exact ⟨m, b, .inl ⟨rfl, rfl⟩, hmax, fun hle => absurd hle (by omega),
        fun _ => ⟨by simpa using hc, hmin.resolve_left hc⟩⟩

/-- A must-have that meets its conflict is pruned for good by some draws. -/
theorem firstPass_prunes_mustHave {ir : List Ir} {m b : Int}
    (hle : ∀ i, ((graphOf t).mutex i).length ≤ 1)
    (hsymm : ∀ a b, b ∈ (graphOf t).mutex a → a ∈ (graphOf t).mutex b)
    (hl : ir.length = t.length) (h0 : AllOff ir) (hm : (graphOf t).mustHave m = true)
    (hmb : b ∈ (graphOf t).mutex m) (hmax : chosen bitmap (max m b) = true)
    (hmin : chosen bitmap (min m b) = true ∨ (graphOf t).mustHave (min m b) = true) :
    ∃ d, ∀ s1 s2, forUpto t.length (selectStep d t bitmap) ⟨ir, 0⟩ = .ok s1 →
      forUpto t.length (firstStep d t) s1 = .ok s2 → enableOf s2.ir m = some 2 := by
  have hbm : m ∈ (graphOf t).mutex b := hsymm m b hmb
  have hm_in : InTable t m := inTable_of_mem_mutex hmb
  have hb_in : InTable t b := inTable_of_mem_mutex hbm
  obtain ⟨i, c, hic, hi, hc1, hc0⟩ := exists_meeting hm hmax hmin
  have hi_in : InTable t i := by rcases hic with ⟨rfl, -⟩ | ⟨rfl, -⟩ <;> assumption
  have hc_in : InTable t c := by rcases hic with ⟨-, rfl⟩ | ⟨-, rfl⟩ <;> assumption
  have hmut : (graphOf t).mutex i = [c] := by
    rcases hic with ⟨rfl, rfl⟩ | ⟨rfl, rfl⟩
    · exact eq_singleton_of_mem (hle i) hmb
    · exact eq_singleton_of_mem (hle i) hbm
  obtain ⟨k, rfl⟩ := Int.eq_ofNat_of_zero_le hi_in.1
  have hk : k < t.length := by have := hi_in.2; omega
  have hd : ∃ d : Draws, (m = c ∧ ∀ k, d.randNum k 0 2 = 0) ∨
      (m = k ∧ m ≠ c ∧ ∀ k, d.randNum k 0 2 = 1) := by
    by_cases hmc : m = c
    · exact ⟨.least, .inl ⟨hmc, fun _ => rfl⟩⟩
    · refine ⟨.greatest, .inr ⟨?_, hmc, fun _ => rfl⟩⟩
      rcases hic with ⟨h, -⟩ | ⟨-, h⟩
      · exact h.symm
      · exact absurd h.symm hmc
  obtain ⟨d, hd⟩ := hd
  refine ⟨d, fun s1 s2 h1 h2 => ?_⟩
  have hmarks := (select_marks h1).1
  refine firstPass_prunes hsymm hle hmut ?_ (fun hkc => ?_) (fun hck => ?_) hd hk h2
  · rw [On, hmarks, if_pos ⟨hi_in.1, hi_in.2, hi⟩]
  · rw [On, hmarks, if_pos ⟨hc_in.1, hc_in.2, hc1 hkc⟩]
  · obtain ⟨hcf, hcm⟩ := hc0 hck
    refine ⟨?_, hcm⟩
    rw [hmarks, if_neg (by rw [hcf]; rintro ⟨-, -, h⟩; cases h)]
    obtain ⟨v, hv⟩ := enableOf_of_range hc_in.1 (show c < ir.length by rw [hl]; exact hc_in.2)
    rw [hv, h0.eq_zero hv]

end

/-- **When every must-have is in every level-0 command.** If no must-have meets its
conflict, every run that reaches the emission loop has all must-haves on. Runs do
reach it when the table is in order, and then the condition is also necessary,
as long as no node that must have a child can bring such a must-have back. -/
theorem atEmission_mustHave (t : List ArgNode) (hle : ∀ i, ((graphOf t).mutex i).length ≤ 1)
    (hsymm : ∀ a b, b ∈ (graphOf t).mutex a → a ∈ (graphOf t).mutex b) (bitmap : List Nat)
    (ir : List Ir) (hl : ir.length = t.length) (h0 : AllOff ir) :
    (SparesMustHaves (graphOf t) bitmap → ∀ d s, atEmission d t t.length bitmap 0 ir = .ok s →
      ∀ m, (graphOf t).mustHave m = true → On s.ir m) ∧
    (TableOK t → t.length ≤ bitmap.length →
      (∀ d, ∃ s, atEmission d t t.length bitmap 0 ir = .ok s) ∧
      ((∀ p m, (graphOf t).mustChild p = true → (graphOf t).mustHave m = true →
          (graphOf t).mutex m ≠ [] → m ∉ (graphOf t).child p) →
        ((∀ d s, atEmission d t t.length bitmap 0 ir = .ok s →
          ∀ m, (graphOf t).mustHave m = true → On s.ir m) ↔
            SparesMustHaves (graphOf t) bitmap))) := by
  have hsuff : SparesMustHaves (graphOf t) bitmap → ∀ d s,
      atEmission d t t.length bitmap 0 ir = .ok s →
      ∀ m, (graphOf t).mustHave m = true → On s.ir m := by
    intro hsp d s hs m hm
    obtain ⟨s1, s2, h1, h2, h3⟩ := atEmission_cases hs
    have hI := forUpto_inv (SparedAt t bitmap) (SparedAt.start hl h0 h1)
      (fun k s s' _ hI hb => hI.step hle hsymm hsp hb) h2
    exact (secondPass_moves h3).on (hI.done m hm (inTable_of_mustHave hm).2)
  refine ⟨hsuff, fun ht hb => ⟨fun d => ?_, fun hchild => ⟨fun hall => ?_, hsuff⟩⟩⟩
  · obtain ⟨s, hs, -⟩ := atEmission_total (d := d) ht hle hl hb
    exact ⟨s, hs⟩
  · rintro m b hm hmb ⟨hmax, hmin⟩
    obtain ⟨d, hd⟩ := firstPass_prunes_mustHave hle hsymm hl h0 hm hmb hmax hmin
    obtain ⟨s, hs, -⟩ := atEmission_total (d := d) ht hle hl hb
    obtain ⟨s1, s2, h1, h2, h3⟩ := atEmission_cases hs
    have hpruned := (secondPass_moves h3).pruned
      (fun p hp => hchild p m hp hm (List.ne_nil_of_mem hmb)) (hd s1 s2 h1 h2)
    have hon := hall d s hs m hm
    rw [On, hpruned] at hon
    cases hon

/-- A must-have and its conflict. -/
def mustPair : List ArgNode :=
  [{ plainNode "-F" with mustHave := true, mutex := some [1] },
   { plainNode "-n" with mutex := some [0] }]

theorem mustPair_spared : SparesMustHaves (graphOf mustPair) [2, 1] ∧
    ∃ s, atEmission .greatest mustPair 2 [2, 1] 0 (zeroIr 2) = .ok s ∧ On s.ir 0 := by
  have hsp : SparesMustHaves (graphOf mustPair) [2, 1] := by
    rintro m b hm hb ⟨hc, _⟩
    obtain ⟨h0, h1⟩ := inTable_of_mustHave hm
    have hm' : m = 0 ∨ m = 1 := by
      have : m < 2 := h1
      omega
    rcases hm' with rfl | rfl
    · have hb : b = 1 := by simpa [graphOf, mustPair, at?] using hb
      subst hb
      revert hc
      decide
    · revert hm
      decide
  obtain ⟨hx, ht⟩ := atEmission_mustHave mustPair (mutex_le_one_iff.2 (by decide))
    (mutex_symm_iff.2 (by decide)) [2, 1] (zeroIr 2) rfl (by decide)
  obtain ⟨s, hs⟩ := (ht (by decide) (by decide)).1 .greatest
  exact ⟨hsp, s, hs, hx hsp .greatest s hs 0 (by decide)⟩

/-- Both bytes even and the draw for the conflict: the must-have is pruned. -/
theorem mustPair_pruned : (∀ a, ((graphOf mustPair).mutex a).length ≤ 1) ∧
    (∀ a b, b ∈ (graphOf mustPair).mutex a → a ∈ (graphOf mustPair).mutex b) ∧
    AllOff (zeroIr 2) ∧ bitmapFuzz .greatest [0, 0] 2 = .ok [2, 2] ∧
    (graphOf mustPair).mustHave 0 = true ∧
    ∃ s, atEmission .greatest mustPair 2 [2, 2] 0 (zeroIr 2) = .ok s ∧ ¬ On s.ir 0 := by
  exact ⟨mutex_le_one_iff.2 (by decide), mutex_symm_iff.2 (by decide), by decide, by decide,
    by decide, _, rfl, by decide⟩

end ConFuzz
