import ConFuzz.Emit.Render
import ConFuzz.Resolve.Draw
import ConFuzz.Resolve.Exclusion
import ConFuzz.Resolve.Closure
import ConFuzz.Resolve.Coverage
import ConFuzz.Resolve.MustHave

/-!
# The commands of a table

`SpecTable` is what the shipped specifications have in common. Of such a table
level 0 generates exactly the renderings of its configurations: complete,
consistent sets of options with documented values (`argFuzz_generates`). The
three loops resolve whatever the bitmap chooses to a configuration, and every
configuration is drawn by some bitmap and some values.
-/

namespace ConFuzz

open ConFuzz.CLib ConFuzz.Config

/-- A table like those of the shipped specifications. -/
structure SpecTable (t : List ArgNode) : Prop where
  forest : ForestTable t
  conflicts : PairedConflicts (graphOf t)
  deps : SingleDeps (graphOf t)
  ids : TableOK t
  values : ∀ node ∈ t, NodeDoc node
  /-- The dependants of a node that must have a child are its children. -/
  dependants : ∀ j p, p ∈ (graphOf t).dep j → (graphOf t).mustChild p = true →
    (graphOf t).child p ≠ [] → j ∈ (graphOf t).child p
  /-- No command starts with an option that has a dependency. -/
  leads : ∀ j, (graphOf t).dep j ≠ [] →
    ∃ k, k < j ∧ ((graphOf t).mustHave k = true ∨ k ∈ (graphOf t).dep j)

/-- The cells hold a complete, consistent set of options with documented values. -/
structure Configuration (t : List ArgNode) (ir : List Ir) : Prop where
  length : ir.length = t.length
  valid : Valid (graphOf t) (InTable t) (On ir)
  values : ∀ i node cell, On ir i → at? t i = some node → at? ir i = some cell →
    Documented node cell

/-- The cells hold any set of options, with documented values. -/
structure Selection (t : List ArgNode) (ir : List Ir) : Prop where
  length : ir.length = t.length
  values : ∀ i node cell, On ir i → at? t i = some node → at? ir i = some cell →
    Documented node cell

theorem Configuration.selection {t : List ArgNode} {ir : List Ir} (hc : Configuration t ir) :
    Selection t ir := ⟨hc.length, hc.values⟩

/-- The command of the cells: the enabled trees in order. -/
noncomputable def ForestTable.command {t : List ArgNode} (hF : ForestTable t) (ir : List Ir) :
    String :=
  " " ++ String.join ((enabledRoots t ir t.length).map fun r =>
    hF.forest.render (textsOf t ir) r ++ (textsOf t ir).sep r)

section

variable {d : Draws} {t : List ArgNode} {bitmap : List Nat} {ir ir' : List Ir} {s : Run}
  {stale : Int → Int}

/-! ## Every run resolves to a configuration -/

theorem sparesMustHaves_of_paired (h : PairedConflicts (graphOf t)) :
    SparesMustHaves (graphOf t) bitmap := by
  intro m b hm hb
  rw [h.not_mustHave m b hb] at hm
  cases hm

theorem length_atEmission (hT : SpecTable t) (hl : ir.length = t.length)
    (hb : t.length ≤ bitmap.length) (h : atEmission d t t.length bitmap 0 ir = .ok s) :
    s.ir.length = t.length := by
  obtain ⟨s', hs', hl'⟩ := atEmission_total (d := d) hT.ids hT.conflicts.le_one hl hb
  rw [h] at hs'
  cases hs'
  exact hl'

/-- The second iteration gives every node that is on the child it must have. -/
theorem secondPass_mustChild (hT : SpecTable t) {s' : Run} (h : secondPass d t t.length s = .ok s')
    {p : Int} (hp : On s'.ir p) (hm : (graphOf t).mustChild p = true)
    (hne : (graphOf t).child p ≠ []) : ∃ c ∈ (graphOf t).child p, On s'.ir c := by
  have hcl := secondPass_closes (C := ChildClosedAt (graphOf t))
    (fun hm hc => hm.childClosedAt hc) ?_ h p hp
  · rcases hcl with h | h
    · exact h hm hne
    · obtain ⟨c, hc⟩ := List.exists_mem_of_ne_nil _ hne
      have := (inTable_of_mem_child hc).2
      omega
  · intro k s1 s2 _ _ hb
    obtain ⟨e, hdep, hchild⟩ := secondStep_runs hb
    have hnew := hdep.childClosed hT.dependants
    obtain ⟨hk, hcnew⟩ := hchild.closed
    refine ⟨fun hon => (hcnew k hon).elim hk id, fun i hi => ?_⟩
    rcases hcnew i hi with h | h
    · exact (hnew i h).imp id fun h => .inl (hchild.moves.childClosedAt h)
    · exact .inr (.inl h)

theorem atEmission_valid (hT : SpecTable t) (hl : ir.length = t.length) (h0 : AllOff ir)
    (hb : t.length ≤ bitmap.length) (h : atEmission d t t.length bitmap 0 ir = .ok s) :
    Valid (graphOf t) (InTable t) (On s.ir) := by
  have hls := length_atEmission hT hl hb h
  obtain ⟨s1, s2, h1, h2, h3⟩ := atEmission_cases h
  have hnode : ∀ i, On s.ir i → InTable t i := fun i hi => by
    obtain ⟨hi0, hi1⟩ := range_of_enableOf hi
    exact ⟨hi0, by omega⟩
  have hnp : NoPrunedDep (graphOf t) (enableOf s1.ir) := by
    intro j p _ v hv
    rw [(select_marks h1).1 p] at hv
    split at hv
    · exact .inr (Option.some.inj hv).symm
    · exact .inl (h0.eq_zero hv)
  refine ⟨hnode, fun m _ hm => ?_, fun i hi p hp => ?_, fun a b ha hb hab => ?_,
    fun p hp hm hne => secondPass_mustChild hT h3 hp hm hne⟩
  · have hI := forUpto_inv (SparedAt t bitmap) (SparedAt.start hl h0 h1)
      (fun k s s' _ hI hstep => hI.step hT.conflicts.le_one
        (fun a b => (hT.conflicts.symm a b).1) (sparesMustHaves_of_paired hT.conflicts) hstep) h2
    exact (secondPass_moves h3).on (hI.done m hm (inTable_of_mustHave hm).2)
  · rcases secondPass_depClosed hT.deps (firstPass_noPrunedDep hT.deps hnp h2) h3 i hi with h | h
    · exact h p hp
    · have := (hnode i hi).2
      omega
  · exact hT.conflicts.moves (firstPass_exclusive hT.conflicts h2) (secondPass_moves h3) a b hab
      ⟨ha, hb⟩

theorem Documented.congr {node : ArgNode} {cell cell' : Ir} (h : Documented node cell)
    (hint : cell'.valueInt = cell.valueInt) (hchar : cell'.valueChar = cell.valueChar) :
    Documented node cell' := by
  obtain ⟨h1, h2, h3, h4⟩ := h
  refine ⟨?_, ?_, ?_, ?_⟩
  · rw [hint]; exact h1
  · rw [hint]; exact h2
  · rw [hchar]; exact h3
  · rw [hchar]; exact h4

theorem cell_of_valuesOf {i : Int} {cell : Ir} (h : valuesOf ir' = valuesOf ir)
    (hc : at? ir' i = some cell) :
    ∃ cell', at? ir i = some cell' ∧ cell.valueInt = cell'.valueInt ∧
      cell.valueChar = cell'.valueChar := by
  have hi := congrFun h i
  unfold valuesOf at hi
  rw [hc, Option.map_some] at hi
  obtain ⟨cell', hc', he⟩ := Option.map_eq_some_iff.1 hi.symm
  rw [Prod.mk.injEq] at he
  exact ⟨cell', hc', he.1.symm, he.2.symm⟩

/-- **A level-0 run ends in a configuration.** -/
theorem atEmission_configuration (hT : SpecTable t) (hl : ir.length = t.length) (h0 : AllOff ir)
    (hb : t.length ≤ bitmap.length) (h : atEmission d t t.length bitmap 0 ir = .ok s) :
    Configuration t s.ir := by
  refine ⟨length_atEmission hT hl hb h, atEmission_valid hT hl h0 hb h, ?_⟩
  intro i node cell _ hn hc
  obtain ⟨s1, s2, h1, h2, h3⟩ := atEmission_cases h
  obtain ⟨cell', hc', hint, hchar⟩ := cell_of_valuesOf
    ((secondPass_values h3).trans (firstPass_values h2)) hc
  exact (select_documented hT.values h1 i node cell' hn hc').congr hint hchar

/-! ## Every configuration is drawn -/

open Classical in
/-- The draws whose bitmap chooses `S`, with the results `v` of `rand_num` where they are
between the bounds. -/
noncomputable def drawsOf (S : Int → Prop) (v : Nat → Nat) : Draws :=
  { Draws.least with
    rand := fun k => if S k then 1 else 0
    randNum := fun k lo hi => if lo ≤ v k ∧ v k < hi then v k else lo
    randNum_mem := fun k lo hi h => by
      split
      · assumption
      · exact ⟨Nat.le_refl lo, h⟩ }

theorem drawsOf_picks (S : Int → Prop) (v : Nat → Nat) (k : Nat) : (drawsOf S v).Picks k (v k) :=
  fun _ _ h0 h1 => if_pos ⟨h0, h1⟩

theorem drawsOf_chosen {S : Int → Prop} {v : Nat → Nat} {i : Int} (hi : InTable t i)
    (hbytes : ∀ j : Nat, j < t.length → at? bitmap j = some ((drawsOf S v).rand j % 255 + 1)) :
    chosen bitmap i = true ↔ S i := by
  obtain ⟨k, rfl⟩ := Int.eq_ofNat_of_zero_le hi.1
  have hk : k < t.length := by have := hi.2; omega
  unfold chosen
  rw [hbytes k hk]
  by_cases hS : S k <;> simp [drawsOf, hS]

/-- **Every selection is drawn**: some bitmap and some values choose exactly its options. -/
theorem Selection.drawn (hids : TableOK t) (hdoc : ∀ node ∈ t, NodeDoc node)
    (hc : Selection t ir') {argBitmap : List Nat} (hb : t.length ≤ argBitmap.length)
    (hl : ir.length = t.length) (h0 : AllOff ir) :
    ∃ d bitmap s, bitmapFuzz d argBitmap t.length = .ok bitmap ∧
      bitmap.length = argBitmap.length ∧
      forUpto t.length (selectStep d t bitmap) ⟨ir, 0⟩ = .ok s ∧ s.ir.length = t.length ∧
      (∀ i, On s.ir i ↔ On ir' i) ∧
      ∀ i node cell cell', On ir' i → at? t i = some node → at? ir' i = some cell →
        at? s.ir i = some cell' → SameValue node cell' cell := by
  obtain ⟨v, hv⟩ := @exists_picks t hdoc
    (fun i cell => On ir' i ∧ at? ir' i = some cell)
    (fun i node cell hn h => hc.values i node cell h.1 hn h.2)
    (fun i cell cell' h h' => Option.some.inj (h.2.symm.trans h'.2))
  obtain ⟨bitmap, hbm, hbl, hbytes⟩ := bitmapFuzz_spec (d := drawsOf (On ir') v) hb
  obtain ⟨s, hs, hls⟩ := select_total (d := drawsOf (On ir') v) hids hl
    (show t.length ≤ bitmap.length by omega)
  refine ⟨drawsOf (On ir') v, bitmap, s, hbm, hbl, hs, hls, fun i => ?_, ?_⟩
  · unfold On
    rw [(select_marks hs).1 i]
    constructor
    · intro h
      split at h
      · rename_i hc
        exact (drawsOf_chosen ⟨hc.1, hc.2.1⟩ hbytes).1 hc.2.2
      · exact absurd (h0.eq_zero h) (by decide)
    · intro hi
      have hin : InTable t i := by
        obtain ⟨hi0, hi1⟩ := range_of_enableOf hi
        exact ⟨hi0, by rwa [hc.length] at hi1⟩
      rw [if_pos ⟨hin.1, hin.2, (drawsOf_chosen hin hbytes).2 hi⟩]
  · intro i node cell cell' hi hn hcell hcell'
    exact hv _ bitmap ir s (drawsOf_picks (On ir') v) hs i node cell cell' hn ⟨hi, hcell⟩ hcell'

/-- **Every configuration is drawn**: some run has exactly its options on at the
emission loop, with its values. -/
theorem Configuration.drawn (hT : SpecTable t) (hc : Configuration t ir') {argBitmap : List Nat}
    (hb : t.length ≤ argBitmap.length) (hl : ir.length = t.length) (h0 : AllOff ir) :
    ∃ d bitmap s, bitmapFuzz d argBitmap t.length = .ok bitmap ∧
      atEmission d t t.length bitmap 0 ir = .ok s ∧ s.ir.length = t.length ∧
      (∀ i, On s.ir i ↔ On ir' i) ∧
      ∀ i node cell cell', On ir' i → at? t i = some node → at? ir' i = some cell →
        at? s.ir i = some cell' → SameValue node cell' cell := by
  obtain ⟨d, bitmap, s1, hbm, hbl, h1, hl1, hon, hsame⟩ :=
    hc.selection.drawn hT.ids hT.values hb hl h0
  obtain ⟨s2, h2, he2⟩ := firstPass_valid (d := d) hT.ids hc.valid hl1 hon
  have hon2 : ∀ i, On s2.ir i ↔ On ir' i := by rw [he2]; exact hon
  have hl2 : s2.ir.length = t.length := by rw [he2]; exact hl1
  obtain ⟨s3, h3, he3⟩ := secondPass_valid (d := d) hT.ids hc.valid hl2 hon2
  have hend : atEmission d t t.length bitmap 0 ir = .ok s3 := by
    refine bind_eq_ok.2 ⟨s1, h1, ?_⟩
    rw [if_pos rfl]
    exact bind_eq_ok.2 ⟨s2, h2, h3⟩
  refine ⟨d, bitmap, s3, hbm, hend, ?_, fun i => ?_, ?_⟩
  · exact length_atEmission hT hl (by omega) hend
  · unfold On
    rw [he3]
    exact hon2 i
  · intro i node cell cell' hi hn hcell hcell'
    obtain ⟨cell1, hc1, hint, hchar⟩ := cell_of_valuesOf
      ((secondPass_values h3).trans (firstPass_values h2)) hcell'
    obtain ⟨hsameInt, hsameChar⟩ := hsame i node cell cell1 hi hn hcell hc1
    exact ⟨fun hty => hint.trans (hsameInt hty), fun hty => hchar.trans (hsameChar hty)⟩

/-! ## The command of a configuration -/

theorem valueText_congr {node : ArgNode} {cell cell' : Ir} (h : SameValue node cell cell') :
    valueText node cell = valueText node cell' := by
  unfold valueText
  split
  · rename_i hty
    rw [h.1 hty]
  · split
    · rename_i hty
      rw [h.2 hty]
    · rfl

def SameOptions (t : List ArgNode) (ir ir' : List Ir) : Prop :=
  (∀ i, On ir i ↔ On ir' i) ∧
    ∀ i node cell cell', On ir' i → at? t i = some node → at? ir' i = some cell →
      at? ir i = some cell' → SameValue node cell' cell

/-- The text of a tree depends on the options that are on and on their values. -/
theorem ForestTable.render_sameOptions (hF : ForestTable t) (hl : ir.length = t.length)
    (hl' : ir'.length = t.length) (h : SameOptions t ir ir') {r : Int} (hr : On ir' r) :
    hF.forest.render (textsOf t ir) r = hF.forest.render (textsOf t ir') r := by
  obtain ⟨hon, hval⟩ := h
  have hleaf : ∀ i, On ir' i → (textsOf t ir).leaf i = (textsOf t ir').leaf i := by
    intro i hi
    cases hn : at? t i with
    | none => simp only [textsOf, hn, Option.bind_none]
    | some node =>
      have hin : InTable t i := range_of_at? hn
      obtain ⟨cell, hc⟩ := at?_of_inTable hin hl
      obtain ⟨cell', hc'⟩ := at?_of_inTable hin hl'
      simp only [textsOf, hn, hc, hc', Option.bind_some, Option.map_some, Option.getD_some,
        valueText_congr (hval i node cell' cell hi hn hc' hc)]
  refine Forest.render_congr_on (hleaf r hr) fun j _ => ?_
  refine ⟨decide_eq_decide.2 (hon j), rfl, rfl, fun hj => hleaf j ?_⟩
  exact (hon j).1 (of_decide_eq_true hj)

theorem ForestTable.command_congr (hF : ForestTable t) (hl : ir.length = t.length)
    (hl' : ir'.length = t.length) (h : SameOptions t ir ir') :
    hF.command ir = hF.command ir' := by
  have hroots : enabledRoots t ir t.length = enabledRoots t ir' t.length := by
    unfold enabledRoots
    simp only [h.1]
  unfold ForestTable.command
  rw [hroots]
  refine congrArg (fun l => " " ++ String.join l) (List.map_congr_left fun r hr => ?_)
  have hron : On ir' r := (of_decide_eq_true (List.mem_filter.1 hr).2).1
  exact congrArg (· ++ _) (hF.render_sameOptions hl hl' h hron)

theorem branchGenerate_fresh {fuel : Nat} {i : Int} {lastSibling : Bool} (hon : On ir i)
    (hin : InTable t i) (hdep : (graphOf t).dep i = []) (branch branch' : String) :
    branchGenerate t stale (fuel + 1) ⟨ir, branch⟩ i lastSibling =
      branchGenerate t stale (fuel + 1) ⟨ir, branch'⟩ i lastSibling := by
  obtain ⟨node, hn⟩ := at?_of_inTable hin rfl
  obtain ⟨cell, hc, hv⟩ := enableOf_eq_some.1 hon
  rw [graphOf_dep hn] at hdep
  have hstart : ∀ b, startText node b = node.arg := fun b => if_pos hdep
  by_cases hnil : node.childId = []
  · have hleaf := fun b => @branchGenerate_leaf t stale fuel ⟨ir, b⟩ i lastSibling node cell hc hv
      hn hnil
    rw [hleaf branch, hleaf branch', hstart, hstart]
  · have hnode := fun b => @branchGenerate_node t stale fuel ⟨ir, b⟩ i lastSibling node cell hc hv
      hn hnil
    rw [hnode branch, hnode branch', hstart, hstart]

theorem SpecTable.first_free (hT : SpecTable t) {S : Int → Prop}
    (hS : Valid (graphOf t) (InTable t) S) {i : Int} (hi : S i) (hfirst : ∀ j, j < i → ¬ S j) :
    (graphOf t).dep i = [] := by
  by_contra hne
  obtain ⟨k, hk, hm | hd⟩ := hT.leads i hne
  · exact hfirst k hk (hS.mustHave k (inTable_of_mustHave hm) hm)
  · exact hfirst k hk (hS.dep i hi k hd)

theorem Configuration.parent_on (hT : SpecTable t) (hc : Configuration t ir) {p c : Int}
    (hpc : c ∈ (graphOf t).child p) (hon : On ir c) : On ir p :=
  hc.valid.dep c hon p (by rw [hT.deps.child_dep p c hpc]; exact List.mem_cons_self)

/-- **The emission loop writes the command of a configuration**, whatever the buffer held. -/
theorem emitLoop_command (hT : SpecTable t) (hc : Configuration t ir) (branch : String) :
    ∃ o, emitLoop t stale t.length ir branch = .ok o ∧ o.ir.length = t.length ∧
      o.cmd = hT.forest.command ir := by
  obtain ⟨o, ho, hlo⟩ : ∃ o, emitLoop t stale t.length ir branch = .ok o ∧
      o.ir.length = t.length := emitLoop_total hT.ids.child hc.length branch
  have hstart : EmittedAt hT.forest ir 0 ⟨ir, "", " "⟩ := by
    refine ⟨fun _ _ _ _ _ => rfl, fun j hj hjon => ?_, fun p c hpc => hc.parent_on hT hpc,
      rfl, rfl⟩
    have := (range_of_enableOf hjon).1
    omega
  -- until the first option the state is the initial one, whose buffer is never looked at
  have hI := forUpto_inv (fun k o => EmittedAt hT.forest ir k o ∨
    (o = ⟨ir, branch, " "⟩ ∧ EmittedAt hT.forest ir k ⟨ir, "", " "⟩)) (.inr ⟨rfl, hstart⟩) ?_ ho
  · refine ⟨o, ho, hlo, ?_⟩
    rcases hI with hI | ⟨rfl, hI⟩ <;> exact hI.cmd
  · rintro k o1 o2 hk (hI | ⟨rfl, hI⟩) hstep
    · exact .inl (hI.step hk hstep)
    · by_cases hon : On ir k
      · have hdep := hT.first_free hc.valid hon fun j hj => hI.behind j hj
        have hfresh : emitStep t stale k ⟨ir, "", " "⟩ = .ok o2 := by
          rw [← hstep]
          unfold emitStep
          rw [branchGenerate_fresh hon ⟨by omega, by omega⟩ hdep "" branch]
        exact .inl (hI.step hk hfresh)
      · unfold emitStep at hstep
        obtain ⟨⟨emitted, st⟩, hr, hstep⟩ := bind_eq_ok.1 hstep
        cases branchGenerate_not_on hr hon
        cases hstep
        exact .inr ⟨rfl, hI.step_off hon⟩

/-- A call of `arg_fuzz` that reaches the emission loop with a configuration writes its
command. -/
theorem argFuzz_command (hT : SpecTable t) {argBitmap : List Nat} {mem : Stale}
    (hbm : bitmapFuzz d argBitmap t.length = .ok bitmap)
    (hs : atEmission d t t.length bitmap 0 mem.ir = .ok s) (hc : Configuration t s.ir) :
    ∃ r, argFuzz d t t.length argBitmap 0 mem = .ok r ∧ r.1 = hT.forest.command s.ir := by
  obtain ⟨o, ho, hlo, hcmd⟩ : ∃ o, emitLoop t mem.last t.length s.ir mem.branch = .ok o ∧
      o.ir.length = t.length ∧ o.cmd = hT.forest.command s.ir := emitLoop_command hT hc mem.branch
  obtain ⟨ir', hir, -⟩ := clear_total hlo
  refine ⟨(o.cmd, ir'), ?_, hcmd⟩
  unfold argFuzz
  rw [hbm, ok_bind, hs, ok_bind, ho, ok_bind, hir, ok_bind]
  rfl

variable {argBitmap : List Nat}

/-- Every call of `arg_fuzz` writes the command of a configuration. -/
theorem argFuzz_configuration (hT : SpecTable t) (hb : t.length ≤ argBitmap.length) (mem : Stale)
    (hl : mem.ir.length = t.length) (h0 : AllOff mem.ir) (d : Draws) :
    ∃ ir r, Configuration t ir ∧ argFuzz d t t.length argBitmap 0 mem = .ok r ∧
      r.1 = hT.forest.command ir := by
  obtain ⟨bitmap, hbm, hbl, -⟩ := bitmapFuzz_spec (d := d) hb
  have hbl' : t.length ≤ bitmap.length := by omega
  obtain ⟨s, hs, -⟩ := atEmission_total (d := d) hT.ids hT.conflicts.le_one hl hbl'
  have hc := atEmission_configuration hT hl h0 hbl' hs
  obtain ⟨r, hr, hcmd⟩ := argFuzz_command hT hbm hs hc
  exact ⟨s.ir, r, hc, hr, hcmd⟩

/-- The command of every configuration is written by some call. -/
theorem Configuration.generated (hT : SpecTable t) (hc : Configuration t ir)
    (hb : t.length ≤ argBitmap.length) (mem : Stale) (hl : mem.ir.length = t.length)
    (h0 : AllOff mem.ir) :
    ∃ d r, argFuzz d t t.length argBitmap 0 mem = .ok r ∧ r.1 = hT.forest.command ir := by
  obtain ⟨d, bitmap, s, hbm, hs, hls, hon, hval⟩ := hc.drawn hT hb hl h0
  obtain ⟨bitmap', hbm', hbl, -⟩ := bitmapFuzz_spec (d := d) hb
  rw [hbm] at hbm'
  cases hbm'
  have hcs := atEmission_configuration hT hl h0 (by omega) hs
  obtain ⟨r, hr, hcmd⟩ := argFuzz_command hT hbm hs hcs
  exact ⟨d, r, hr, hcmd.trans (hT.forest.command_congr hls hc.length ⟨hon, hval⟩)⟩

end

/-- **The generator is exact.** On a table like the shipped ones, from memory with every
node off, every call of `arg_fuzz` at level 0 ends; and a text is the command of some call
if and only if it is the rendering of a configuration. -/
theorem argFuzz_generates (t : List ArgNode) (hT : SpecTable t) (argBitmap : List Nat)
    (hb : t.length ≤ argBitmap.length) (mem : Stale) (hl : mem.ir.length = t.length)
    (h0 : AllOff mem.ir) :
    (∀ d, ∃ r, argFuzz d t t.length argBitmap 0 mem = .ok r) ∧
    ∀ cmd, (∃ d r, argFuzz d t t.length argBitmap 0 mem = .ok r ∧ r.1 = cmd) ↔
      ∃ ir, Configuration t ir ∧ cmd = hT.forest.command ir := by
  refine ⟨fun d => ?_, fun cmd => ⟨?_, ?_⟩⟩
  · obtain ⟨-, r, -, hr, -⟩ := argFuzz_configuration hT hb mem hl h0 d
    exact ⟨r, hr⟩
  · rintro ⟨d, r, hr, rfl⟩
    obtain ⟨ir, r', hc, hr', hcmd⟩ := argFuzz_configuration hT hb mem hl h0 d
    rw [hr] at hr'
    cases hr'
    exact ⟨ir, hc, hcmd⟩
  · rintro ⟨ir, hc, rfl⟩
    exact hc.generated hT hb mem hl h0

/-! ## Checking a table -/

theorem specTable_of_ids {t : List ArgNode} (hF : ForestTable t)
    (hx : PairedConflicts (graphOf t)) (hd : SingleDeps (graphOf t)) (ht : TableOK t)
    (hv : ∀ node ∈ t, NodeDoc node)
    (hdc : ∀ j ∈ ids t, ∀ p ∈ (graphOf t).dep j, (graphOf t).mustChild p = true →
      (graphOf t).child p ≠ [] → j ∈ (graphOf t).child p)
    (hlead : ∀ j ∈ ids t, (graphOf t).dep j ≠ [] →
      ∃ k ∈ ids t, k < j ∧ ((graphOf t).mustHave k = true ∨ k ∈ (graphOf t).dep j)) :
    SpecTable t := by
  refine ⟨hF, hx, hd, ht, hv, fun j p hp => hdc j (mem_ids.2 (inTable_of_mem_dep hp)) p hp,
    fun j hj => ?_⟩
  obtain ⟨p, hp⟩ := List.exists_mem_of_ne_nil _ hj
  obtain ⟨k, -, hk⟩ := hlead j (mem_ids.2 (inTable_of_mem_dep hp)) hj
  exact ⟨k, hk⟩

theorem journal_spec : SpecTable journalTable :=
  specTable_of_ids (forestTable_iff.2 (by decide)) (by decide) (by decide) (by decide)
    (fun node hn => nodeDoc_of_check ((List.all_eq_true.1 (by decide :
      journalTable.all NodeDoc.check = true)) node hn)) (by decide) (by decide)

/-- `-J` with a device, from memory that holds another branch. -/
theorem journal_generates : ∃ d r,
    argFuzz d journalTable 3 [0, 0, 0] 0 ⟨zeroIr 3, "-b 1024 ", fun _ => 7⟩ = .ok r ∧
      r.1 = " -J device= " := by
  have hS : Valid (graphOf journalTable) (InTable journalTable)
      (On [⟨1, 0, ""⟩, ⟨0, 0, ""⟩, ⟨1, 0, ""⟩]) := by
    have hids : ∀ i, On [⟨1, 0, ""⟩, ⟨0, 0, ""⟩, ⟨1, 0, ""⟩] i → i ∈ ids journalTable := by
      intro i hi
      obtain ⟨h0, h1⟩ := range_of_enableOf hi
      exact mem_ids.2 ⟨h0, h1⟩
    have hon : ∀ i ∈ ids journalTable, On [⟨1, 0, ""⟩, ⟨0, 0, ""⟩, ⟨1, 0, ""⟩] i →
        (∀ p ∈ (graphOf journalTable).dep i, On [⟨1, 0, ""⟩, ⟨0, 0, ""⟩, ⟨1, 0, ""⟩] p) ∧
        (∀ j ∈ (graphOf journalTable).mutex i, ¬ On [⟨1, 0, ""⟩, ⟨0, 0, ""⟩, ⟨1, 0, ""⟩] j) ∧
        ((graphOf journalTable).child i ≠ [] → ∃ c ∈ (graphOf journalTable).child i,
          On [⟨1, 0, ""⟩, ⟨0, 0, ""⟩, ⟨1, 0, ""⟩] c) := by decide
    refine ⟨fun i hi => mem_ids.1 (hids i hi), fun i hi hm => ?_, fun i hi p hp =>
      (hon i (hids i hi) hi).1 p hp, fun i j hi hj hij => (hon i (hids i hi) hi).2.1 j hij hj,
      fun i hi _ hne => (hon i (hids i hi) hi).2.2 hne⟩
    have hno : ∀ i ∈ ids journalTable, (graphOf journalTable).mustHave i = false := by decide
    rw [hno i (mem_ids.2 hi)] at hm
    cases hm
  have hvalue : ∀ node ∈ journalTable, node.valueType = 0 := by decide
  have hc : Configuration journalTable [⟨1, 0, ""⟩, ⟨0, 0, ""⟩, ⟨1, 0, ""⟩] := by
    refine ⟨rfl, hS, fun i node cell _ hn _ => ?_⟩
    have h0 := hvalue node (mem_of_at? hn)
    exact ⟨fun _ _ _ h => by omega, fun _ _ _ _ h => by omega, fun h => by omega,
      fun h => by omega⟩
  obtain ⟨-, hgen⟩ := argFuzz_generates journalTable journal_spec [0, 0, 0] (by decide)
    ⟨zeroIr 3, "-b 1024 ", fun _ => 7⟩ rfl (by decide)
  obtain ⟨d, r, hr, hcmd⟩ := (hgen _).2 ⟨_, hc, rfl⟩
  refine ⟨d, r, hr, hcmd.trans ?_⟩
  have hroots : enabledRoots journalTable [⟨1, 0, ""⟩, ⟨0, 0, ""⟩, ⟨1, 0, ""⟩]
      journalTable.length = [0] := by decide
  have hchild : journal_spec.forest.forest.child 0 = [1, 2] := rfl
  have hfilter : [1, 2].filter
      (textsOf journalTable [⟨1, 0, ""⟩, ⟨0, 0, ""⟩, ⟨1, 0, ""⟩]).on = [2] := by decide
  unfold ForestTable.command
  rw [hroots, List.map_singleton, Forest.render_node (by rw [hchild]; exact List.cons_ne_nil _ _),
    hchild, hfilter, joinSep, Forest.render_leaf (i := 2) rfl]
  rfl

end ConFuzz
