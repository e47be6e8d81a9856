import ConFuzz.Model.Emit
import ConFuzz.Resolve.Total

/-!
# What a step of the emission loop can do

`branch_generate` at a node that is off, at one with children and at a leaf. On a table
whose child ids are nodes of the table, whatever graph they form, the emission
loop ends without a fault (`emitLoop_total`): `onCount`, the number of nodes
whose `enable` is 1, drops before the children are visited and never grows.
-/

namespace ConFuzz

open ConFuzz.CLib ConFuzz.Config

section

variable {t : List ArgNode} {stale : Int → Int}

/-- The loop of `branch_generate` over the children of a node. -/
def branchChildren (argArray : List ArgNode) (stale : Int → Int) (fuel : Nat) (last : Int)
    (children : List Int) (st : Branch) : Except Fault Branch :=
  children.foldlM (fun st c => do
    let r ← branchGenerate argArray stale fuel st c (c == last)
    return r.2) st

/-- The buffer after `strcpy` or `strcat` of the name of a node. -/
def startText (node : ArgNode) (branch : String) : String :=
  if node.dependencyId = [] then node.arg else branch ++ node.arg

/-- The buffer with the separator of a node, unless it is the last sibling. -/
def endText (node : ArgNode) (lastSibling : Bool) (branch : String) : String :=
  if lastSibling then branch else branch ++ siblingText node

section

variable {fuel : Nat} {st : Branch} {id : Int} {lastSibling : Bool} {node : ArgNode} {cell : Ir}

theorem branchGenerate_off (hc : at? st.ir id = some cell) (hoff : cell.enable ≠ 1) :
    branchGenerate t stale (fuel + 1) st id lastSibling = .ok (false, st) := by
  unfold branchGenerate
  rw [rd_eq_ok.2 hc, ok_bind, if_neg hoff]
  rfl

/-- At a node with children that is on, a call sets `enable` to 2 and renders the children. -/
theorem branchGenerate_node (hc : at? st.ir id = some cell) (hon : cell.enable = 1)
    (hn : at? t id = some node) (hne : node.childId ≠ []) :
    branchGenerate t stale (fuel + 1) st id lastSibling =
      (lastEnabled (put st.ir id { cell with enable := 2 }) node.childId (stale id) >>= fun last =>
        branchChildren t stale fuel last node.childId ⟨put st.ir id { cell with enable := 2 },
          startText node st.branch ++ operatorText node.operatorChild⟩ >>= fun st1 =>
        .ok (true, ⟨st1.ir, endText node lastSibling st1.branch⟩)) := by
  unfold branchGenerate
  rw [rd_eq_ok.2 hc, ok_bind, if_pos hon, setEnable_eq_ok.2 ⟨cell, hc, rfl⟩, ok_bind,
    rd_eq_ok.2 hn, ok_bind]
  simp only [ne_eq, hne, not_false_eq_true, ↓reduceIte]
  rfl

theorem branchGenerate_leaf (hc : at? st.ir id = some cell) (hon : cell.enable = 1)
    (hn : at? t id = some node) (hnil : node.childId = []) :
    branchGenerate t stale (fuel + 1) st id lastSibling =
      .ok (true, ⟨put st.ir id { cell with enable := 2 }, endText node lastSibling
        (startText node st.branch ++ operatorText node.operatorValue ++ valueText node cell)⟩) := by
  have hput : at? (put st.ir id { cell with enable := 2 }) id =
      some { cell with enable := 2 } := by rw [at?_put _ hc, if_pos rfl]
  have hset : setEnable (put st.ir id { cell with enable := 2 }) id 2 =
      .ok (put st.ir id { cell with enable := 2 }) :=
    setEnable_eq_ok.2 ⟨_, hput, (put_self hput).symm⟩
  unfold branchGenerate
  rw [rd_eq_ok.2 hc, ok_bind, if_pos hon, setEnable_eq_ok.2 ⟨cell, hc, rfl⟩, ok_bind,
    rd_eq_ok.2 hn, ok_bind]
  simp only [hnil, ne_eq, not_true_eq_false, ↓reduceIte, rd_eq_ok.2 hput, hset, ok_bind]
  rfl

end

/-! ## The emission loop ends -/

theorem lastEnabled_total {ir : List Ir} (hl : ir.length = t.length) :
    ∀ {l : List Int} (last : Int), (∀ c ∈ l, InTable t c) → ∃ r, lastEnabled ir l last = .ok r
  | [], last, _ => ⟨last, rfl⟩
  | c :: l, last, h => by
    obtain ⟨cell, hc⟩ := at?_of_inTable (h c List.mem_cons_self) hl
    unfold lastEnabled
    rw [rd_eq_ok.2 hc, ok_bind]
    exact lastEnabled_total hl _ fun c' hc' => h c' (List.mem_cons_of_mem c hc')

def onCount (ir : List Ir) : Nat := ir.countP (fun cell => cell.enable = 1)

theorem onCount_le (ir : List Ir) : onCount ir ≤ ir.length := List.countP_le_length

/-- An array of the length of the table with at most `n` nodes on. -/
def AtMostOn (t : List ArgNode) (n : Nat) (ir : List Ir) : Prop :=
  ir.length = t.length ∧ onCount ir ≤ n

/-- **A call ends** on any child graph, when its bound exceeds the number of nodes that are
on; it turns no node on. -/
theorem branchGenerate_total (ht : ∀ node ∈ t, ∀ c ∈ node.childId, InTable t c) :
    ∀ {fuel n : Nat} {st : Branch} {id : Int} (lastSibling : Bool), AtMostOn t n st.ir →
      InTable t id → n < fuel →
      ∃ r, branchGenerate t stale fuel st id lastSibling = .ok r ∧ AtMostOn t n r.2.ir
  | 0, _, _, _, _, _, _, hf => absurd hf (Nat.not_lt_zero _)
  | fuel + 1, n, st, id, lastSibling, ⟨hl, hn⟩, hid, hf => by
    obtain ⟨node, hnode⟩ := at?_of_inTable hid rfl
    obtain ⟨cell, hc⟩ := at?_of_inTable hid hl
    by_cases hon : cell.enable = 1
    · have hl' : (put st.ir id { cell with enable := 2 }).length = t.length := by
        rw [length_put, hl]
      have hdrop : onCount (put st.ir id { cell with enable := 2 }) < onCount st.ir :=
        countP_put_lt hc (decide_eq_true hon) rfl
      by_cases hnil : node.childId = []
      · exact ⟨_, branchGenerate_leaf hc hon hnode hnil, hl', by simp only; omega⟩
      · have hids := ht node (mem_of_at? hnode)
        obtain ⟨last, hlast⟩ := lastEnabled_total hl' (stale id) hids
        have hloop : ∃ st1, branchChildren t stale fuel last node.childId
            ⟨put st.ir id { cell with enable := 2 },
              startText node st.branch ++ operatorText node.operatorChild⟩ = .ok st1 ∧
            AtMostOn t (n - 1) st1.ir := by
          refine foldlM_total (fun (st : Branch) => AtMostOn t (n - 1) st.ir)
            ⟨hl', by simp only; omega⟩ ?_
          intro st1 c hcm hI
          obtain ⟨r, hr, hI'⟩ := branchGenerate_total ht (c == last) hI (hids c hcm)
            (show n - 1 < fuel by omega)
          exact ⟨r.2, by rw [hr]; rfl, hI'⟩
        obtain ⟨st1, h1, hl1, hn1⟩ := hloop
        exact ⟨_, by rw [branchGenerate_node hc hon hnode hnil, hlast, ok_bind, h1, ok_bind], hl1,
          by simp only; omega⟩
    · exact ⟨_, branchGenerate_off hc hon, hl, hn⟩

/-- **The emission loop ends** on any child graph. -/
theorem emitLoop_total (ht : ∀ node ∈ t, ∀ c ∈ node.childId, InTable t c) {ir : List Ir}
    (hl : ir.length = t.length) (branch : String) :
    ∃ o, emitLoop t stale t.length ir branch = .ok o ∧ o.ir.length = t.length := by
  refine forUpto_total (fun _ (o : Output) => o.ir.length = t.length) hl ?_
  intro i o hi hlo
  have hid : InTable t i := ⟨by omega, by omega⟩
  have hcall : ∃ r, branchGenerate t stale (o.ir.length + 1) ⟨o.ir, o.branch⟩ i false = .ok r ∧
      AtMostOn t (onCount o.ir) r.2.ir :=
    branchGenerate_total ht false ⟨hlo, Nat.le_refl _⟩ hid (Nat.lt_succ_of_le (onCount_le o.ir))
  obtain ⟨⟨emitted, st⟩, hr, hl', -⟩ := hcall
  cases emitted with
  | true => exact ⟨⟨st.ir, "", o.cmd ++ st.branch⟩, bind_eq_ok.2 ⟨_, hr, rfl⟩, hl'⟩
  | false => exact ⟨⟨st.ir, st.branch, o.cmd⟩, bind_eq_ok.2 ⟨_, hr, rfl⟩, hl'⟩

theorem clear_total {n : Nat} {ir : List Ir} (hl : ir.length = n) :
    ∃ ir', forUpto n (fun i ir => setEnable ir i 0) ir = .ok ir' ∧ ir'.length = n := by
  refine forUpto_total (fun _ (ir : List Ir) => ir.length = n) hl fun k ir hk hI => ?_
  obtain ⟨ir1, h1⟩ := setEnable_total 0 (show (0 : Int) ≤ k by omega)
    (show (k : Int) < ir.length by omega)
  exact ⟨ir1, h1, (length_setEnable h1).trans hI⟩

end

end ConFuzz
