import ConFuzz.Emit.Buffer
import ConFuzz.Emit.Command

/-!
# Levels without resolution

Above level 0 `arg_fuzz` prints whatever the bitmap chose. A child can then be
on while its parent is off, and it starts a branch of its own: the command is
the rendering of the `tops`, the nodes that are on and hang on no node that is
on (`emitLoop_tops`). Only the first branch can show what the buffer held
before, and it does if its node has a dependency (`leadText`).

The emission loop looks at the children of a node only when it is on, so it runs
alike on the table in which the nodes that are off have no children
(`emitLoop_cut`). There every child that is on has its parent on.
-/

namespace ConFuzz

open ConFuzz.CLib ConFuzz.Config

/-- The table in which the nodes that are off have no children. -/
def cut (t : List ArgNode) (ir : List Ir) : List ArgNode :=
  t.mapIdx fun i node => if On ir i then node else { node with childId := [] }

def Below (ir ir' : List Ir) : Prop := ∀ j, On ir' j → On ir j

section

variable {t : List ArgNode} {ir ir' : List Ir} {i : Int} {stale : Int → Int}

@[simp] theorem length_cut : (cut t ir).length = t.length := List.length_mapIdx

theorem at?_cut : at? (cut t ir) i = (at? t i).map fun node =>
    if On ir i then node else { node with childId := [] } := by
  unfold at?
  split
  · next h0 =>
    obtain ⟨k, rfl⟩ := Int.eq_ofNat_of_zero_le h0
    exact List.getElem?_mapIdx
  · rfl

theorem at?_cut_of_on (h : On ir i) : at? (cut t ir) i = at? t i := by
  rw [at?_cut]
  simp only [h, if_true, Option.map_id']

theorem graphOf_cut_child : (graphOf (cut t ir)).child i =
    if On ir i then (graphOf t).child i else [] := by
  unfold graphOf
  simp only [at?_cut]
  split <;> cases at? t i <;> rfl

theorem graphOf_cut_dep : (graphOf (cut t ir)).dep i = (graphOf t).dep i := by
  unfold graphOf
  simp only [at?_cut]
  by_cases h : On ir i <;> cases at? t i <;> simp only [h, if_true, if_false] <;> rfl

theorem textsOf_cut : textsOf (cut t ir) ir = textsOf t ir := by
  unfold textsOf
  congr 1 <;> funext i <;> simp only [at?_cut] <;> by_cases h : On ir i <;> cases at? t i <;>
    simp only [h, if_true, if_false] <;> rfl

/-! ## The loop on the cut table -/

theorem Below.setEnable {v : Int} {ir1 ir2 : List Ir} (h : Below ir ir1) (hv : v ≠ 1)
    (hs : setEnable ir1 i v = .ok ir2) : Below ir ir2 := by
  intro j hj
  unfold On at hj
  rw [enableOf_setEnable hs] at hj
  by_cases hji : j = i
  · rw [hji, Function.update_self] at hj
    exact absurd (Option.some.inj hj) hv
  · rw [Function.update_of_ne hji] at hj
    exact h j hj

/-- A call does not see the children of nodes that are off. -/
theorem branchGenerate_cut : ∀ {fuel : Nat} {st : Branch} {id : Int} {lastSibling : Bool},
    Below ir st.ir → Alike (fun r r' => r = r' ∧ Below ir r.2.ir)
      (branchGenerate t stale fuel st id lastSibling)
      (branchGenerate (cut t ir) stale fuel st id lastSibling)
  | 0, _, _, _, _ => rfl
  | fuel + 1, st, id, lastSibling, hst => by
    unfold branchGenerate
    refine (Alike.self _).bind ?_
    rintro cell _ ⟨rfl, hcell⟩
    rw [rd_eq_ok] at hcell
    by_cases hv : cell.enable = 1
    · rw [if_pos hv, if_pos hv]
      have hnode : rd (cut t ir) id = rd t id := by
        unfold rd
        rw [at?_cut_of_on (hst id (enableOf_eq_some.2 ⟨cell, hcell, hv⟩)), length_cut]
      refine (Alike.self _).bind ?_
      rintro ir1 _ ⟨rfl, hir1⟩
      have hbelow : Below ir ir1 := hst.setEnable (by decide) hir1
      rw [hnode]
      refine (Alike.self _).bind ?_
      rintro node _ ⟨rfl, -⟩
      by_cases hne : node.childId ≠ []
      · rw [if_pos hne, if_pos hne]
        refine (Alike.self _).bind ?_
        rintro last _ ⟨rfl, -⟩
        refine Alike.bind (R := fun st st' => st = st' ∧ Below ir st.ir)
          (foldlM_rel ⟨rfl, hbelow⟩ ?_) ?_
        · rintro c st1 _ - ⟨rfl, hst1⟩
          refine (branchGenerate_cut hst1).bind ?_
          rintro r _ ⟨rfl, hr⟩
          exact ⟨rfl, hr⟩
        · rintro st1 _ ⟨rfl, hst1⟩
          exact ⟨rfl, hst1⟩
      · rw [if_neg hne, if_neg hne]
        refine (Alike.self _).bind ?_
        rintro cell1 _ ⟨rfl, -⟩
        refine (Alike.self _).bind ?_
        rintro ir2 _ ⟨rfl, hir2⟩
        exact ⟨rfl, hbelow.setEnable (by decide) hir2⟩
    · rw [if_neg hv, if_neg hv]
      exact ⟨rfl, hst⟩

theorem emitLoop_cut (n : Nat) (branch : String) :
    emitLoop t stale n ir branch = emitLoop (cut t ir) stale n ir branch := by
  have hrun : Alike (fun o o' : Output => o = o' ∧ Below ir o.ir) (emitLoop t stale n ir branch)
      (emitLoop (cut t ir) stale n ir branch) := by
    refine forUpto_rel (fun _ (o o' : Output) => o = o' ∧ Below ir o.ir)
      ⟨rfl, fun _ h => h⟩ ?_
    rintro k o _ - ⟨rfl, ho⟩
    unfold emitStep
    refine (branchGenerate_cut ho).bind ?_
    rintro ⟨emitted, st⟩ _ ⟨rfl, hst⟩
    cases emitted <;> exact ⟨rfl, hst⟩
  exact Alike.eq (hrun.mono fun _ _ h => h.1)

theorem ForestTable.cut (hF : ForestTable t) (ir : List Ir) : ForestTable (cut t ir) := by
  have hsub : ∀ p c, c ∈ (graphOf (ConFuzz.cut t ir)).child p → c ∈ (graphOf t).child p := by
    intro p c hc
    rw [graphOf_cut_child] at hc
    split at hc
    · exact hc
    · cases hc
  refine ⟨fun p c hc => ?_, fun p c hc => hF.child_above p c (hsub p c hc),
    fun p q c hp hq => hF.parent_unique p q c (hsub p c hp) (hsub q c hq), fun p => ?_,
    fun p c hc => ?_⟩
  · rw [InTable, length_cut]
    exact hF.child_in p c (hsub p c hc)
  · rw [graphOf_cut_child]
    split
    · exact hF.nodup p
    · exact List.nodup_nil
  · rw [graphOf_cut_dep]
    exact hF.child_dep p c (hsub p c hc)

theorem render_cut (hF : ForestTable t) {r : Int} (hr : On ir r) :
    (hF.cut ir).forest.render (textsOf (cut t ir) ir) r = hF.forest.render (textsOf t ir) r := by
  rw [textsOf_cut]
  induction r using hF.wf.induction with
  | _ r ih =>
    have hchild : (hF.cut ir).forest.child r = hF.forest.child r := by
      show (graphOf (cut t ir)).child r = (graphOf t).child r
      rw [graphOf_cut_child, if_pos hr]
    by_cases hnil : hF.forest.child r = []
    · rw [Forest.render_leaf hnil, Forest.render_leaf (hchild.trans hnil)]
    · rw [Forest.render_node hnil, Forest.render_node (by rwa [hchild]), hchild]
      refine congrArg _ (joinSep_congr fun c hc => ?_)
      obtain ⟨hc, hon⟩ := List.mem_filter.1 hc
      exact ⟨ih c hc (of_decide_eq_true hon), rfl⟩

/-! ## The tops -/

/-- The nodes that are on and hang on no node that is on. -/
def tops (t : List ArgNode) (ir : List Ir) : List Int :=
  (ids t).filter fun r => On ir r ∧ ∀ p ∈ ids t, On ir p → r ∉ (graphOf t).child p

/-- The texts of the tops in order, each with its separator. -/
noncomputable def ForestTable.topsText (hF : ForestTable t) (ir : List Ir) : String :=
  String.join ((tops t ir).map fun r => hF.forest.render (textsOf t ir) r ++ (textsOf t ir).sep r)

theorem enabledRoots_cut : enabledRoots (cut t ir) ir t.length = tops t ir := by
  unfold enabledRoots tops ids
  rw [length_cut]
  refine List.filter_congr fun r _ => decide_eq_decide.2 (and_congr_right fun _ => ?_)
  refine forall_congr' fun p => imp_congr_right fun _ => ?_
  rw [graphOf_cut_child]
  by_cases hp : On ir p <;> simp [hp]

theorem emitLoop_empty (hF : ForestTable t) (hl : ir.length = t.length) :
    ∃ o, emitLoop t stale t.length ir "" = .ok o ∧ o.ir.length = t.length ∧
      o.cmd = " " ++ hF.topsText ir := by
  have hids : ∀ node ∈ t, ∀ c ∈ node.childId, InTable t c := by
    intro node hnode c hc
    obtain ⟨k, hk⟩ := List.mem_iff_getElem?.1 hnode
    rw [← at?_natCast] at hk
    exact hF.child_in k c (by rw [graphOf_child hk]; exact hc)
  obtain ⟨o, ho, hlo⟩ : ∃ o, emitLoop t stale t.length ir "" = .ok o ∧ o.ir.length = t.length :=
    emitLoop_total hids hl ""
  have hstart : EmittedAt (hF.cut ir) ir 0 ⟨ir, "", " "⟩ := by
    refine ⟨fun _ _ _ _ _ => rfl, fun j hj hjon => ?_, fun p c hc _ => ?_, rfl, rfl⟩
    · have := (range_of_enableOf hjon).1
      omega
    · rw [graphOf_cut_child] at hc
      split at hc
      · next hp => exact hp
      · cases hc
  have hcut : forUpto t.length (emitStep (cut t ir) stale) ⟨ir, "", " "⟩ = .ok o := by
    rw [emitLoop_cut] at ho
    exact ho
  have hI := forUpto_inv (EmittedAt (hF.cut ir) ir) hstart
    (fun k o o' hk hI h => hI.step (by rwa [length_cut]) h) hcut
  refine ⟨o, ho, hlo, ?_⟩
  rw [hI.cmd, enabledRoots_cut, ForestTable.topsText]
  refine congrArg (fun l => " " ++ String.join l) (List.map_congr_left fun r hr => ?_)
  rw [render_cut hF (of_decide_eq_true (List.mem_filter.1 hr).2).1, textsOf_cut]

/-! ## What the buffer held -/

/-- The text that the first branch takes over from the buffer. -/
def leadText (t : List ArgNode) (ir : List Ir) (branch : String) : String :=
  match (ids t).find? fun r => On ir r with
  | some r => if (graphOf t).dep r = [] then "" else branch
  | none => ""

/-- In a forest every child has a dependency, so only the first node can drop the buffer. -/
theorem ForestTable.startsOver_iff (hF : ForestTable t) :
    StartsOver t ir i ↔ On ir i ∧ (graphOf t).dep i = [] := by
  refine ⟨fun h => ⟨h.on, ?_⟩, fun h => .here h.1 h.2⟩
  induction h with
  | here _ hdep => exact hdep
  | child _ hc _ ih => exact absurd ih (hF.child_dep _ _ hc)

theorem ForestTable.leadText_eq (hF : ForestTable t) (hl : ir.length = t.length)
    (branch : String) : (BufferUnread t ir → leadText t ir branch = "") ∧
      (¬ BufferUnread t ir → leadText t ir branch = branch) := by
  unfold leadText
  cases hfind : (ids t).find? fun r => On ir r with
  | none =>
    rw [List.find?_eq_none] at hfind
    refine ⟨fun _ => rfl, fun hno => absurd (fun r hr => ?_) hno⟩
    have hr' := range_of_enableOf hr
    exact absurd (decide_eq_true hr) (hfind r (mem_ids.2 ⟨hr'.1, by omega⟩))
  | some r =>
    obtain ⟨hon, k, hk, hrk, hoff⟩ := List.find?_eq_some_iff_getElem.1 hfind
    obtain rfl : (k : Int) = r := by simpa [ids] using hrk
    have hunread : BufferUnread t ir ↔ (graphOf t).dep k = [] := by
      refine ⟨fun h => ?_, fun hdep r hr hlow => ?_⟩
      · refine (hF.startsOver_iff.1 (h k (of_decide_eq_true hon) fun j hj hjon => ?_)).2
        obtain ⟨m, rfl⟩ := Int.eq_ofNat_of_zero_le (range_of_enableOf hjon).1
        have := hoff m (by omega)
        simp [ids, hjon] at this
      · have hge : ¬ (k : Int) < r := fun hlt => hlow k hlt (of_decide_eq_true hon)
        rcases Int.lt_or_eq_of_le (Int.not_lt.1 hge) with hlt | rfl
        · obtain ⟨m, rfl⟩ := Int.eq_ofNat_of_zero_le (range_of_enableOf hr).1
          have := hoff m (by omega)
          simp [ids, hr] at this
        · exact .here hr hdep
    exact ⟨fun h => if_pos (hunread.1 h), fun h => if_neg fun hdep => h (hunread.2 hdep)⟩

/-- The command of the cells at the levels without resolution, from a buffer with a text. -/
noncomputable def ForestTable.freeCommand (hF : ForestTable t) (branch : String) (ir : List Ir) :
    String :=
  " " ++ leadText t ir branch ++ hF.topsText ir

/-- **The emission loop writes the tops**, from any marks and any buffer. -/
theorem emitLoop_tops (hF : ForestTable t) (hl : ir.length = t.length) (branch : String) :
    ∃ o, emitLoop t stale t.length ir branch = .ok o ∧ o.ir.length = t.length ∧
      o.cmd = hF.freeCommand branch ir := by
  obtain ⟨o', ho', hlo, hcmd⟩ : ∃ o, emitLoop t stale t.length ir "" = .ok o ∧
      o.ir.length = t.length ∧ o.cmd = " " ++ hF.topsText ir := emitLoop_empty hF hl
  have hrun : Alike (SameCommand t ir branch "") (emitLoop t stale t.length ir branch)
      (emitLoop t stale t.length ir "") := emitLoop_buffers (Nat.le_of_eq hl)
  rw [ho'] at hrun
  cases ho : emitLoop t stale t.length ir branch with
  | error e =>
    rw [ho] at hrun
    exact hrun.elim
  | ok o =>
    rw [ho] at hrun
    obtain ⟨hunread, hread⟩ := hF.leadText_eq hl branch
    refine ⟨o, rfl, by rw [hrun.marks]; exact hlo, ?_⟩
    unfold ForestTable.freeCommand
    by_cases hun : BufferUnread t ir
    · rw [hunread hun, hrun.unread hun, hcmd, String.append_empty]
    · obtain ⟨c, hc, hc'⟩ := hrun.read hun
      rw [hcmd, String.append_empty] at hc'
      rw [hread hun, hc, (String.append_right_inj " ").1 hc']

/-! ## The calls -/

theorem ForestTable.freeCommand_congr (hF : ForestTable t) (hl : ir.length = t.length)
    (hl' : ir'.length = t.length) (h : SameOptions t ir ir') (branch : String) :
    hF.freeCommand branch ir = hF.freeCommand branch ir' := by
  have htops : tops t ir = tops t ir' := by
    unfold tops
    simp only [h.1]
  have hlead : leadText t ir branch = leadText t ir' branch := by
    unfold leadText
    simp only [h.1]
  unfold ForestTable.freeCommand ForestTable.topsText
  rw [htops, hlead]
  refine congrArg (fun l => " " ++ leadText t ir' branch ++ String.join l)
    (List.map_congr_left fun r hr => ?_)
  have hron : On ir' r := (of_decide_eq_true (List.mem_filter.1 hr).2).1
  exact congrArg (· ++ _) (hF.render_sameOptions hl hl' h hron)

variable {d : Draws} {argBitmap bitmap : List Nat} {fuzzLevel : Int} {mem : Stale} {s : Run}

theorem argFuzz_tops (hF : ForestTable t) (hlevel : fuzzLevel ≠ 0)
    (hbm : bitmapFuzz d argBitmap t.length = .ok bitmap)
    (hs : forUpto t.length (selectStep d t bitmap) ⟨mem.ir, 0⟩ = .ok s)
    (hls : s.ir.length = t.length) :
    ∃ r, argFuzz d t t.length argBitmap fuzzLevel mem = .ok r ∧
      r.1 = hF.freeCommand mem.branch s.ir := by
  obtain ⟨o, ho, hlo, hcmd⟩ : ∃ o, emitLoop t mem.last t.length s.ir mem.branch = .ok o ∧
      o.ir.length = t.length ∧ o.cmd = hF.freeCommand mem.branch s.ir :=
    emitLoop_tops hF hls mem.branch
  obtain ⟨ir', hir, -⟩ := clear_total hlo
  refine ⟨(o.cmd, ir'), ?_, hcmd⟩
  unfold argFuzz atEmission
  rw [hbm, ok_bind, hs, ok_bind, if_neg hlevel, pure_eq_ok, ok_bind, ho, ok_bind, hir, ok_bind]
  rfl

theorem Selection.generated (hF : ForestTable t) (hids : TableOK t)
    (hdoc : ∀ node ∈ t, NodeDoc node) (hlevel : fuzzLevel ≠ 0) (hb : t.length ≤ argBitmap.length)
    (hl : mem.ir.length = t.length) (h0 : AllOff mem.ir) (hc : Selection t ir) :
    ∃ d r, argFuzz d t t.length argBitmap fuzzLevel mem = .ok r ∧
      r.1 = hF.freeCommand mem.branch ir := by
  obtain ⟨d, bitmap, s, hbm, -, hs, hls, hsame⟩ := hc.drawn hids hdoc hb hl h0
  obtain ⟨r, hr, hcmd⟩ := argFuzz_tops hF hlevel hbm hs hls
  exact ⟨d, r, hr, hcmd.trans (hF.freeCommand_congr hls hc.length hsame mem.branch)⟩

/-- A configuration is written alike at every level. -/
theorem Configuration.freeCommand_eq (hT : SpecTable t) (hc : Configuration t ir)
    (branch : String) : hT.forest.freeCommand branch ir = hT.forest.command ir := by
  obtain ⟨o, ho, -, hcmd⟩ : ∃ o, emitLoop t (fun _ => 0) t.length ir branch = .ok o ∧
      o.ir.length = t.length ∧ o.cmd = hT.forest.command ir := emitLoop_command hT hc branch
  obtain ⟨o', ho', -, hcmd'⟩ : ∃ o, emitLoop t (fun _ => 0) t.length ir branch = .ok o ∧
      o.ir.length = t.length ∧ o.cmd = hT.forest.freeCommand branch ir :=
    emitLoop_tops hT.forest hc.length branch
  rw [ho] at ho'
  cases ho'
  exact hcmd'.symm.trans hcmd

end

/-- **The generator is exact without resolution.** On a table whose children form a forest, from
memory with every node off, every call of `arg_fuzz` above level 0 ends; a text is the command of
some call if and only if it renders the tops of some set of options with documented values, behind
what the first branch takes over from the buffer. On a table like the shipped ones, what level 0
writes is among these commands. -/
theorem argFuzz_selects (t : List ArgNode) (hF : ForestTable t) (hids : TableOK t)
    (hdoc : ∀ node ∈ t, NodeDoc node) (argBitmap : List Nat) (hb : t.length ≤ argBitmap.length)
    (fuzzLevel : Int) (hlevel : fuzzLevel ≠ 0) (mem : Stale) (hl : mem.ir.length = t.length)
    (h0 : AllOff mem.ir) :
    (∀ d, ∃ r, argFuzz d t t.length argBitmap fuzzLevel mem = .ok r) ∧
    (∀ cmd, (∃ d r, argFuzz d t t.length argBitmap fuzzLevel mem = .ok r ∧ r.1 = cmd) ↔
      ∃ ir, Selection t ir ∧ cmd = hF.freeCommand mem.branch ir) ∧
    (SpecTable t → ∀ d r, argFuzz d t t.length argBitmap 0 mem = .ok r →
      ∃ d' r', argFuzz d' t t.length argBitmap fuzzLevel mem = .ok r' ∧ r'.1 = r.1) := by
  have hcall : ∀ d, ∃ ir r, Selection t ir ∧ argFuzz d t t.length argBitmap fuzzLevel mem = .ok r ∧
      r.1 = hF.freeCommand mem.branch ir := by
    intro d
    obtain ⟨bitmap, hbm, hbl, -⟩ := bitmapFuzz_spec (d := d) hb
    obtain ⟨s, hs, hls⟩ := select_total (d := d) hids hl (show t.length ≤ bitmap.length by omega)
    obtain ⟨r, hr, hcmd⟩ := argFuzz_tops hF hlevel hbm hs hls
    exact ⟨s.ir, r, ⟨hls, fun i node cell _ => select_documented hdoc hs i node cell⟩, hr, hcmd⟩
  refine ⟨fun d => ?_, fun cmd => ⟨?_, ?_⟩, fun hT d r hr => ?_⟩
  · obtain ⟨-, r, -, hr, -⟩ := hcall d
    exact ⟨r, hr⟩
  · rintro ⟨d, r, hr, rfl⟩
    obtain ⟨ir, r', hc, hr', hcmd⟩ := hcall d
    rw [hr] at hr'
    cases hr'
    exact ⟨ir, hc, hcmd⟩
  · rintro ⟨ir, hc, rfl⟩
    exact hc.generated hF hids hdoc hlevel hb hl h0
  · obtain ⟨ir, r', hc, hr', hcmd⟩ := argFuzz_configuration hT hb mem hl h0 d
    rw [hr] at hr'
    cases hr'
    obtain ⟨d', r1, hr1, hcmd1⟩ := hc.selection.generated hF hids hdoc hlevel hb hl h0
    exact ⟨d', r1, hr1, by rw [hcmd1, hcmd, hc.freeCommand_eq hT]⟩

/-- Without its parent, `size=` of the `-J` table is a branch behind what the buffer held. -/
theorem journal_selects : ∃ d r,
    argFuzz d journalTable 3 [0, 0, 0] 1 ⟨zeroIr 3, "-b 1024 ", fun _ => 7⟩ = .ok r ∧
      r.1 = " -b 1024 size= " := by
  have hF := journal_spec.forest
  have hvalue : ∀ node ∈ journalTable, node.valueType = 0 := by decide
  have hc : Selection journalTable [⟨0, 0, ""⟩, ⟨1, 0, ""⟩, ⟨0, 0, ""⟩] := by
    refine ⟨rfl, fun i node cell _ hn _ => ?_⟩
    have h0 := hvalue node (mem_of_at? hn)
    exact ⟨fun _ _ _ h => by omega, fun _ _ _ _ h => by omega, fun h => by omega,
      fun h => by omega⟩
  obtain ⟨-, hgen, -⟩ := argFuzz_selects journalTable hF journal_spec.ids journal_spec.values
    [0, 0, 0] (by decide) 1 (by decide) ⟨zeroIr 3, "-b 1024 ", fun _ => 7⟩ rfl (by decide)
  obtain ⟨d, r, hr, hcmd⟩ := (hgen _).2 ⟨_, hc, rfl⟩
  refine ⟨d, r, hr, hcmd.trans ?_⟩
  have htops : tops journalTable [⟨0, 0, ""⟩, ⟨1, 0, ""⟩, ⟨0, 0, ""⟩] = [1] := by decide
  unfold ForestTable.freeCommand ForestTable.topsText
  rw [htops, List.map_singleton, Forest.render_leaf (i := 1) rfl]
  rfl

end ConFuzz
