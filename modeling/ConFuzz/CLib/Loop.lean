import ConFuzz.CLib.Array

/-!
# Counted loops

`forUpto n body s` is `for (i = 0; i < n; i++) body` from the state `s`. A
property of a whole loop is an invariant indexed by the counter: `forUpto_inv`
for the runs that end, `forUpto_total` for loops that cannot fault, and
`forUpto_rel` for two runs side by side. Loops over a list are `List.foldlM`.
A loop that tries again until a test passes is a `searchFrom`.
-/

namespace ConFuzz.CLib

variable {σ τ ε : Type}

/-- `for (i = 0; i < n; i++) body`. -/
def forUpto : Nat → (Nat → σ → Except ε σ) → σ → Except ε σ
  | 0, _, s => .ok s
  | n + 1, body, s => do
    let s ← forUpto n body s
    body n s

theorem forUpto_succ (n : Nat) (body : Nat → σ → Except ε σ) (s : σ) :
    forUpto (n + 1) body s = (forUpto n body s >>= body n) := rfl

/-- An invariant indexed by the counter holds at the end of every run that ends. -/
theorem forUpto_inv {body : Nat → σ → Except ε σ} (I : Nat → σ → Prop) :
    ∀ {n : Nat} {s s' : σ}, I 0 s →
      (∀ i s s', i < n → I i s → body i s = .ok s' → I (i + 1) s') →
      forUpto n body s = .ok s' → I n s'
  | 0, s, s', h0, _, h => by
    cases h
    exact h0
  | n + 1, s, s', h0, hstep, h => by
    obtain ⟨s1, h1, h2⟩ := bind_eq_ok.1 h
    have hI : I n s1 := forUpto_inv I h0 (fun i s s' hi => hstep i s s' (by omega)) h1
    exact hstep n s1 s' (by omega) hI h2

/-- A loop whose body keeps the invariant without faulting ends, with the invariant. -/
theorem forUpto_total {body : Nat → σ → Except ε σ} (I : Nat → σ → Prop) :
    ∀ {n : Nat} {s : σ}, I 0 s →
      (∀ i s, i < n → I i s → ∃ s', body i s = .ok s' ∧ I (i + 1) s') →
      ∃ s', forUpto n body s = .ok s' ∧ I n s'
  | 0, s, h0, _ => ⟨s, rfl, h0⟩
  | n + 1, s, h0, hstep => by
    obtain ⟨s1, h1, hI⟩ := forUpto_total (n := n) I h0 (fun i s hi => hstep i s (by omega))
    obtain ⟨s2, h2, hI2⟩ := hstep n s1 (by omega) hI
    exact ⟨s2, by rw [forUpto_succ, h1]; exact h2, hI2⟩

theorem forUpto_error {body : Nat → σ → Except ε σ} {k : Nat} {s s1 : σ} {e : ε}
    (h : forUpto k body s = .ok s1) (he : body k s1 = .error e) :
    ∀ {n : Nat}, k < n → forUpto n body s = .error e
  | n + 1, hk => by
    rw [forUpto_succ]
    rcases Nat.lt_succ_iff_lt_or_eq.1 hk with hlt | rfl
    · rw [forUpto_error h he hlt]
      rfl
    · rw [h]
      exact he

theorem foldlM_total {α : Type} {body : σ → α → Except ε σ} (I : σ → Prop) :
    ∀ {l : List α} {s : σ}, I s →
      (∀ s a, a ∈ l → I s → ∃ s', body s a = .ok s' ∧ I s') →
      ∃ s', l.foldlM body s = .ok s' ∧ I s'
  | [], s, h0, _ => ⟨s, rfl, h0⟩
  | a :: l, s, h0, hstep => by
    obtain ⟨s1, h1, hI⟩ := hstep s a List.mem_cons_self h0
    obtain ⟨s2, h2, hI2⟩ := foldlM_total I hI fun s b hb => hstep s b (List.mem_cons_of_mem a hb)
    exact ⟨s2, by rw [List.foldlM_cons, h1]; exact h2, hI2⟩

theorem foldlM_total_done {α : Type} {body : σ → α → Except ε σ} (I : List α → σ → Prop) :
    ∀ {l : List α} (done : List α) {s : σ}, I done s →
      (∀ done' a rest s, done ++ l = done' ++ a :: rest → I done' s →
        ∃ s', body s a = .ok s' ∧ I (done' ++ [a]) s') →
      ∃ s', l.foldlM body s = .ok s' ∧ I (done ++ l) s'
  | [], done, s, h0, _ => ⟨s, rfl, by rw [List.append_nil]; exact h0⟩
  | a :: l, done, s, h0, hstep => by
    obtain ⟨s1, h1, hI⟩ := hstep done a l s rfl h0
    have happ : done ++ [a] ++ l = done ++ a :: l := by simp
    obtain ⟨s2, h2, hI2⟩ := foldlM_total_done I (done ++ [a]) hI (by rw [happ]; exact hstep)
    exact ⟨s2, by rw [List.foldlM_cons, h1]; exact h2, by rw [← happ]; exact hI2⟩

theorem foldlM_inv_done {α : Type} {body : σ → α → Except ε σ} (I : List α → σ → Prop) :
    ∀ {l : List α} (done : List α) {s s' : σ}, I done s →
      (∀ done' a rest s s', done ++ l = done' ++ a :: rest → I done' s → body s a = .ok s' →
        I (done' ++ [a]) s') →
      l.foldlM body s = .ok s' → I (done ++ l) s'
  | [], done, s, s', h0, _, h => by
    cases h
    rw [List.append_nil]
    exact h0
  | a :: l, done, s, s', h0, hstep, h => by
    rw [List.foldlM_cons] at h
    obtain ⟨s1, h1, h⟩ := bind_eq_ok.1 h
    have happ : done ++ [a] ++ l = done ++ a :: l := by simp
    rw [← happ]
    exact foldlM_inv_done I (done ++ [a]) (hstep done a l s s1 rfl h0 h1)
      (by rw [happ]; exact hstep) h

/-- A loop over the elements of several lists, each of which has a known effect. What the effect
of a list needs is kept by the lists before it. -/
theorem foldlM_segments {α β : Type} {body : σ → β → Except ε σ} {segment : α → List β}
    {effect : α → σ → σ} (I : α → σ → Prop) : ∀ {l : List α} {s : σ},
      (∀ a ∈ l, ∀ s, I a s → (segment a).foldlM body s = .ok (effect a s)) →
      l.Pairwise (fun a b => ∀ s, I b s → I b (effect a s)) → (∀ a ∈ l, I a s) →
      (l.flatMap segment).foldlM body s = .ok (l.foldl (fun s a => effect a s) s)
  | [], s, _, _, _ => rfl
  | a :: l, s, hrun, hkeep, h0 => by
    obtain ⟨ha, hl⟩ := List.pairwise_cons.1 hkeep
    rw [List.flatMap_cons, List.foldlM_append,
      hrun a List.mem_cons_self s (h0 a List.mem_cons_self), List.foldl_cons]
    exact foldlM_segments I (fun b hb => hrun b (List.mem_cons_of_mem a hb)) hl fun b hb =>
      ha b hb s (h0 b (List.mem_cons_of_mem a hb))

/-- Two results agree: both fault alike, or both end in related states. -/
def Alike (R : σ → τ → Prop) : Except ε σ → Except ε τ → Prop
  | .ok a, .ok b => R a b
  | .error e, .error e' => e = e'
  | _, _ => False

theorem Alike.bind {σ' τ' : Type} {R : σ → τ → Prop} {R' : σ' → τ' → Prop}
    {x : Except ε σ} {y : Except ε τ} {f : σ → Except ε σ'} {g : τ → Except ε τ'}
    (h : Alike R x y) (hk : ∀ a b, R a b → Alike R' (f a) (g b)) :
    Alike R' (x >>= f) (y >>= g) := by
  cases x with
  | error e => cases y with
    | error e' => exact h
    | ok b => exact h.elim
  | ok a => cases y with
    | error e' => exact h.elim
    | ok b => exact hk a b h

theorem Alike.mono {R R' : σ → τ → Prop} {x : Except ε σ} {y : Except ε τ} (h : Alike R x y)
    (hR : ∀ a b, R a b → R' a b) : Alike R' x y := by
  cases x with
  | error e => cases y with
    | error e' => exact h
    | ok b => exact h.elim
  | ok a => cases y with
    | error e' => exact h.elim
    | ok b => exact hR a b h

theorem Alike.of_eq {R : σ → τ → Prop} {x : Except ε σ} {y : Except ε τ} {a : σ} {b : τ}
    (hx : x = .ok a) (hy : y = .ok b) (h : R a b) : Alike R x y := by
  rw [hx, hy]
  exact h

theorem Alike.map_eq {ω : Type} {f : σ → ω} {g : τ → ω} {x : Except ε σ} {y : Except ε τ}
    (h : Alike (fun a b => f a = g b) x y) : x.map f = y.map g := by
  cases x with
  | error e => cases y with
    | error e' => exact congrArg Except.error h
    | ok b => exact h.elim
  | ok a => cases y with
    | error e' => exact h.elim
    | ok b => exact congrArg Except.ok h

theorem Alike.eq {x y : Except ε σ} (h : Alike Eq x y) : x = y := by
  cases x with
  | error e => cases y with
    | error e' => exact congrArg Except.error h
    | ok b => exact h.elim
  | ok a => cases y with
    | error e' => exact h.elim
    | ok b => exact congrArg Except.ok h

theorem Alike.and_ok {R : σ → τ → Prop} {x : Except ε σ} {y : Except ε τ} (h : Alike R x y) :
    Alike (fun a b => R a b ∧ y = .ok b) x y := by
  cases x with
  | error e => cases y with
    | error e' => exact h
    | ok b => exact h.elim
  | ok a => cases y with
    | error e' => exact h.elim
    | ok b => exact ⟨h, rfl⟩

theorem Alike.trans {ρ : Type} {R : σ → τ → Prop} {R' : τ → ρ → Prop} {x : Except ε σ}
    {y : Except ε τ} {z : Except ε ρ} (h : Alike R x y) (h' : Alike R' y z) :
    Alike (fun a c => ∃ b, R a b ∧ R' b c) x z := by
  cases y with
  | error e => cases x with
    | ok a => exact h.elim
    | error e' => cases z with
      | ok c => exact h'.elim
      | error e'' => exact (show e' = e from h).trans h'
  | ok b => cases x with
    | error e => exact h.elim
    | ok a => cases z with
      | error e => exact h'.elim
      | ok c => exact ⟨b, h, h'⟩

theorem Alike.self (x : Except ε σ) : Alike (fun a b => a = b ∧ x = .ok a) x x := by
  cases x with
  | error e => exact rfl
  | ok a => exact ⟨rfl, rfl⟩

/-- Two runs of a loop over a list, side by side. -/
theorem foldlM_rel {α : Type} {R : σ → τ → Prop} {body : σ → α → Except ε σ}
    {body' : τ → α → Except ε τ} :
    ∀ {l : List α} {s : σ} {t : τ}, R s t →
      (∀ a s t, a ∈ l → R s t → Alike R (body s a) (body' t a)) →
      Alike R (l.foldlM body s) (l.foldlM body' t)
  | [], _, _, h0, _ => h0
  | a :: l, s, t, h0, hstep => by
    rw [List.foldlM_cons, List.foldlM_cons]
    exact (hstep a s t List.mem_cons_self h0).bind fun _ _ h =>
      foldlM_rel h fun b s t hb => hstep b s t (List.mem_cons_of_mem a hb)

/-- Two runs of a loop, side by side. -/
theorem forUpto_rel (R : Nat → σ → τ → Prop) {body : Nat → σ → Except ε σ}
    {body' : Nat → τ → Except ε τ} :
    ∀ {n : Nat} {s : σ} {t : τ}, R 0 s t →
      (∀ i s t, i < n → R i s t → Alike (R (i + 1)) (body i s) (body' i t)) →
      Alike (R n) (forUpto n body s) (forUpto n body' t)
  | 0, _, _, h0, _ => h0
  | n + 1, _, _, h0, hstep =>
    (forUpto_rel R h0 fun i s t hi => hstep i s t (by omega)).bind
      fun a b hab => hstep n a b (by omega) hab

/-- The first of the `fuel` positions from `pos` on that passes a test. -/
def searchFrom (test : Nat → Bool) : Nat → Nat → Option Nat
  | 0, _ => none
  | fuel + 1, pos => if test pos then some pos else searchFrom test fuel (pos + 1)

theorem searchFrom_eq_some {test : Nat → Bool} {j : Nat} : ∀ {fuel pos : Nat},
    searchFrom test fuel pos = some j ↔
      pos ≤ j ∧ j < pos + fuel ∧ test j = true ∧ ∀ i, pos ≤ i → i < j → test i = false := by
  intro fuel
  induction fuel with
  | zero =>
    intro pos
    simp only [searchFrom]
    constructor
    · intro h; cases h
    · intro h; omega
  | succ fuel ih =>
    intro pos
    rw [searchFrom]
    cases hp : test pos with
    | true =>
      simp only [if_true, Option.some.injEq]
      constructor
      · rintro rfl
        exact ⟨Nat.le_refl _, by omega, hp, fun i h1 h2 => by omega⟩
      · rintro ⟨hle, -, -, hno⟩
        rcases Nat.lt_or_ge pos j with hlt | hge
        · have hfalse := hno pos (Nat.le_refl _) hlt
          rw [hp] at hfalse
          cases hfalse
        · omega
    | false =>
      rw [if_neg (by decide), ih]
      constructor
      · rintro ⟨hle, hlt, ht, hno⟩
        refine ⟨by omega, by omega, ht, fun i h1 h2 => ?_⟩
        rcases Nat.eq_or_lt_of_le h1 with rfl | h
        · exact hp
        · exact hno i h h2
      · rintro ⟨hle, hlt, ht, hno⟩
        have hne : pos ≠ j := by
          rintro rfl
          rw [hp] at ht
          cases ht
        exact ⟨by omega, by omega, ht, fun i h1 h2 => hno i (by omega) h2⟩

end ConFuzz.CLib
