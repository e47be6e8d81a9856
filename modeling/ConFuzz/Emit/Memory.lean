import ConFuzz.Emit.Buffer
import ConFuzz.Resolve.Select

/-!
# What a run sees of the memory it does not initialise

`arg_fuzz` gets an `ir_` array and a `branch` buffer that nobody has initialised.
The first loop sets `enable` where the bitmap byte is even, and the values of the
value types that are read. Elsewhere the memory is looked at: of every old `enable`
field the program asks whether it is 1, and level 0 asks of some whether it is 0
(`AskedZero`). `SameMarks` relates two arrays that these questions do not tell
apart. Two runs from related memories stay related through every loop and write the
same command.
-/

namespace ConFuzz

open ConFuzz.CLib ConFuzz.Config

/-- `enable` fields that the program does not tell apart, where it asks for 0 if `zero`. -/
def SameMark (zero : Prop) (v w : Int) : Prop := (v = 1 ↔ w = 1) ∧ (zero → (v = 0 ↔ w = 0))

instance (zero : Prop) [Decidable zero] (v w : Int) : Decidable (SameMark zero v w) :=
  inferInstanceAs (Decidable (_ ∧ _))

theorem SameMark.refl (zero : Prop) (v : Int) : SameMark zero v v := ⟨Iff.rfl, fun _ => Iff.rfl⟩

/-- Cells of node `i` that look alike, the mark when it is `seen` and the value when it is
`drawn`. -/
structure SameCell (t : List ArgNode) (i : Int) (zero seen drawn : Prop) (c c' : Ir) : Prop where
  mark : seen → SameMark zero c.enable c'.enable
  value : drawn → ∀ node, at? t i = some node → valueText node c = valueText node c'

/-- Arrays for a table that look alike at the nodes that are `seen` and `drawn`. -/
structure SameMarks (t : List ArgNode) (zero seen drawn : Int → Prop) (ir ir' : List Ir) :
    Prop where
  table : ir.length = t.length
  length : ir.length = ir'.length
  cell : ∀ i c c', at? ir i = some c → at? ir' i = some c' →
    SameCell t i (zero i) (seen i) (drawn i) c c'

section

variable {t : List ArgNode} {zero seen drawn : Int → Prop} {k : Nat} {ir ir' : List Ir} {i : Int}

theorem SameMarks.at? (h : SameMarks t zero seen drawn ir ir') (i : Int) :
    (∃ c c', at? ir i = some c ∧ at? ir' i = some c' ∧
      SameCell t i (zero i) (seen i) (drawn i) c c') ∨ (at? ir i = none ∧ at? ir' i = none) := by
  cases hc : CLib.at? ir i with
  | some c =>
    obtain ⟨h0, h1⟩ := range_of_at? hc
    obtain ⟨c', hc'⟩ := at?_of_mem_range (l := ir') h0 (by rw [← h.length]; exact h1)
    exact .inl ⟨c, c', rfl, hc', h.cell i c c' hc hc'⟩
  | none =>
    cases hc' : CLib.at? ir' i with
    | some c' =>
      obtain ⟨h0, h1⟩ := range_of_at? hc'
      obtain ⟨c, hc2⟩ := at?_of_mem_range (l := ir) h0 (by rw [h.length]; exact h1)
      rw [hc] at hc2
      cases hc2
    | none => exact .inr ⟨rfl, rfl⟩

theorem SameMarks.rd (h : SameMarks t zero seen drawn ir ir') (i : Int) :
    Alike (SameCell t i (zero i) (seen i) (drawn i)) (rd ir i) (rd ir' i) := by
  unfold CLib.rd
  rcases h.at? i with ⟨c, c', hc, hc', hcell⟩ | ⟨hc, hc'⟩
  · rw [hc, hc']
    exact hcell
  · rw [hc, hc', h.length]
    exact rfl

theorem SameMarks.mono {seen' drawn' : Int → Prop} (h : SameMarks t zero seen drawn ir ir')
    (hs : ∀ i < (ir.length : Int), seen' i → seen i)
    (hd : ∀ i < (ir.length : Int), drawn' i → drawn i) : SameMarks t zero seen' drawn' ir ir' := by
  refine ⟨h.table, h.length, fun i c c' hc hc' => ?_⟩
  have hcell := h.cell i c c' hc hc'
  have hi := (range_of_at? hc).2
  exact ⟨fun hi' => hcell.mark (hs i hi hi'), fun hi' => hcell.value (hd i hi hi')⟩

theorem SameMarks.update {seen' drawn' : Int → Prop} {f : Ir → Ir}
    (h : SameMarks t zero seen drawn ir ir') (i : Int)
    (hf : ∀ c c', SameCell t i (zero i) (seen i) (drawn i) c c' →
      SameCell t i (zero i) (seen' i) (drawn' i) (f c) (f c'))
    (hs : ∀ j, j ≠ i → seen' j → seen j) (hd : ∀ j, j ≠ i → drawn' j → drawn j) :
    Alike (SameMarks t zero seen' drawn') (CLib.rd ir i >>= fun c => wr ir i (f c))
      (CLib.rd ir' i >>= fun c => wr ir' i (f c)) := by
  rcases h.at? i with ⟨c, c', hc, hc', hcell⟩ | ⟨hc, hc'⟩
  · rw [rd_eq_ok.2 hc, rd_eq_ok.2 hc', ok_bind, ok_bind]
    refine .of_eq (wr_eq_ok.2 ⟨⟨c, hc⟩, rfl⟩) (wr_eq_ok.2 ⟨⟨c', hc'⟩, rfl⟩) ?_
    refine ⟨by simp [h.table], by simp [h.length], fun j b b' hb hb' => ?_⟩
    rw [at?_put _ hc] at hb
    rw [at?_put _ hc'] at hb'
    by_cases hj : j = i
    · subst hj
      rw [if_pos rfl] at hb hb'
      cases hb
      cases hb'
      exact hf c c' hcell
    · rw [if_neg hj] at hb hb'
      have hcell := h.cell j b b' hb hb'
      exact ⟨fun hjs => hcell.mark (hs j hj hjs), fun hjd => hcell.value (hd j hj hjd)⟩
  · unfold CLib.rd
    rw [hc, hc', h.length]
    exact rfl

theorem SameMarks.setEnable (h : SameMarks t zero seen drawn ir ir') (i v : Int) :
    Alike (SameMarks t zero seen drawn) (setEnable ir i v) (setEnable ir' i v) :=
  h.update i (fun _ _ hc => ⟨fun _ => .refl _ v, hc.value⟩) (fun _ _ hj => hj) fun _ _ hj => hj

/-! ## The first loop -/

variable {d : Draws} {s s' : Run} {bitmap : List Nat}

end

end ConFuzz
