import ConFuzz.Emit.Command

/-!
# Calls of `arg_fuzz` in a row

A caller that wants many commands keeps `ir_` and `arg_bitmap` and calls
`arg_fuzz` again, as the loop in `main` would. The last loop of a call sets
every `enable` field back to 0, so what the arrays held before the first call
shows in the first command at most: every later level-0 call prints a
configuration, whatever the levels of the calls before it, and any sequence of
configurations can be printed.
-/

namespace ConFuzz

open ConFuzz.CLib ConFuzz.Config

/-- The arrays that a caller keeps between two calls. -/
structure Arrays where
  ir : List Ir
  bitmap : List Nat

/-- One call: its level, what it draws and what its stack frame holds. -/
structure Call where
  draws : Draws
  fuzzLevel : Int
  branch : String
  last : Int → Int

/-- Calls in a row, with the commands that they write. -/
def argFuzzCalls (argArray : List ArgNode) :
    List Call → Arrays → Except Fault (List String × Arrays)
  | [], mem => .ok ([], mem)
  | call :: calls, mem => do
    let bitmap ← bitmapFuzz call.draws mem.bitmap argArray.length
    let r ← argFuzz call.draws argArray argArray.length mem.bitmap call.fuzzLevel
      ⟨mem.ir, call.branch, call.last⟩
    let rest ← argFuzzCalls argArray calls ⟨r.2, bitmap⟩
    return (r.1 :: rest.1, rest.2)

structure Arrays.Fits (t : List ArgNode) (mem : Arrays) : Prop where
  ir : mem.ir.length = t.length
  bitmap : t.length ≤ mem.bitmap.length

section

variable {t : List ArgNode} {mem : Arrays}

/-! ## One call -/

theorem clear_off {n : Nat} {ir ir' : List Ir} (hl : ir.length = n)
    (h : forUpto n (fun i ir => setEnable ir i 0) ir = .ok ir') :
    ir'.length = n ∧ AllOff ir' := by
  have hI := forUpto_inv (fun k (ir' : List Ir) => ir'.length = n ∧
    ∀ j v, j < (k : Int) → enableOf ir' j = some v → v = 0) ⟨hl, fun j v hj hv => ?_⟩ ?_ h
  · refine ⟨hI.1, fun cell hc => ?_⟩
    obtain ⟨k, hk⟩ := List.mem_iff_getElem?.1 hc
    rw [← at?_natCast] at hk
    have hlt := (range_of_at? hk).2
    exact hI.2 k cell.enable (by omega) (enableOf_eq_some.2 ⟨cell, hk, rfl⟩)
  · have := (range_of_enableOf hv).1
    omega
  · rintro k ir1 ir2 _ ⟨hl1, hoff⟩ hset
    refine ⟨(length_setEnable hset).trans hl1, fun j v hj hv => ?_⟩
    rw [enableOf_setEnable hset] at hv
    by_cases hjk : j = k
    · rw [hjk, Function.update_self] at hv
      exact (Option.some.inj hv).symm
    · rw [Function.update_of_ne hjk] at hv
      exact hoff j v (by omega) hv

theorem atEmission_ends (hT : SpecTable t) (d : Draws) {bitmap : List Nat} {ir : List Ir}
    (fuzzLevel : Int) (hl : ir.length = t.length) (hb : t.length ≤ bitmap.length) :
    ∃ s, atEmission d t t.length bitmap fuzzLevel ir = .ok s ∧ s.ir.length = t.length := by
  by_cases h0 : fuzzLevel = 0
  · subst h0
    exact atEmission_total hT.ids hT.conflicts.le_one hl hb
  · obtain ⟨s, hs, hls⟩ := select_total (d := d) hT.ids hl hb
    refine ⟨s, bind_eq_ok.2 ⟨s, hs, ?_⟩, hls⟩
    rw [if_neg h0]
    rfl

/-- **A call ends, and leaves every node off**, whatever the arrays held. -/
theorem argFuzz_leaves_off (hT : SpecTable t) (hm : mem.Fits t) (call : Call) :
    ∃ bitmap r, bitmapFuzz call.draws mem.bitmap t.length = .ok bitmap ∧
      argFuzz call.draws t t.length mem.bitmap call.fuzzLevel
        ⟨mem.ir, call.branch, call.last⟩ = .ok r ∧
      Arrays.Fits t ⟨r.2, bitmap⟩ ∧ AllOff r.2 := by
  obtain ⟨bitmap, hbm, hbl, -⟩ := bitmapFuzz_spec (d := call.draws) hm.bitmap
  have hb : t.length ≤ bitmap.length := by rw [hbl]; exact hm.bitmap
  obtain ⟨s, hs, hls⟩ := atEmission_ends hT call.draws call.fuzzLevel hm.ir hb
  obtain ⟨o, ho, hlo⟩ : ∃ o, emitLoop t call.last t.length s.ir call.branch = .ok o ∧
      o.ir.length = t.length := emitLoop_total hT.ids.child hls call.branch
  obtain ⟨ir', hir, -⟩ := clear_total hlo
  obtain ⟨hl', hoff⟩ := clear_off hlo hir
  refine ⟨bitmap, (o.cmd, ir'), hbm, ?_, ⟨hl', hb⟩, hoff⟩
  unfold argFuzz
  rw [hbm, ok_bind, hs, ok_bind, ho, ok_bind, hir, ok_bind]
  rfl

/-! ## Calls in a row -/

/-- A sequence of calls ends; its arrays still fit, with every node off after the first call. -/
theorem argFuzzCalls_ends (hT : SpecTable t) : ∀ (calls : List Call) {mem : Arrays}, mem.Fits t →
    ∃ r, argFuzzCalls t calls mem = .ok r ∧ r.1.length = calls.length ∧ r.2.Fits t ∧
      (calls ≠ [] ∨ AllOff mem.ir → AllOff r.2.ir)
  | [], mem, hm => ⟨([], mem), rfl, rfl, hm, fun h => h.resolve_left fun hne => hne rfl⟩
  | call :: calls, mem, hm => by
    obtain ⟨bitmap, r, hbm, hr, hm', hoff⟩ := argFuzz_leaves_off hT hm call
    obtain ⟨rest, hrest, hlen, hfits, hend⟩ := argFuzzCalls_ends hT calls hm'
    refine ⟨(r.1 :: rest.1, rest.2), ?_, by simp [hlen], hfits, fun _ => hend (.inr hoff)⟩
    rw [argFuzzCalls, hbm, ok_bind, hr, ok_bind, hrest, ok_bind]
    rfl

/-- From arrays with every node off, every level-0 call prints a configuration. -/
theorem argFuzzCalls_configurations (hT : SpecTable t) : ∀ {calls : List Call} {mem : Arrays}
    {r : List String × Arrays}, mem.Fits t → AllOff mem.ir → argFuzzCalls t calls mem = .ok r →
    ∀ (k : Nat) (call : Call) cmd, calls[k]? = some call → call.fuzzLevel = 0 → r.1[k]? = some cmd →
      ∃ ir, Configuration t ir ∧ cmd = hT.forest.command ir
  | [], _, _, _, _, _, _, _, _, hcall, _, _ => by cases hcall
  | call :: calls, mem, r, hm, h0, h, k, call', cmd, hcall, hlevel, hcmd => by
    obtain ⟨bitmap, r1, hbm, hr1, hm', hoff⟩ := argFuzz_leaves_off hT hm call
    rw [argFuzzCalls, hbm, ok_bind, hr1, ok_bind] at h
    obtain ⟨rest, hrest, h⟩ := bind_eq_ok.1 h
    cases h
    cases k with
    | zero =>
      cases hcall
      cases hcmd
      obtain ⟨ir, r2, hc, hr2, hcmd⟩ := argFuzz_configuration hT hm.bitmap
        ⟨mem.ir, call.branch, call.last⟩ hm.ir h0 call.draws
      rw [hlevel, hr2] at hr1
      cases hr1
      exact ⟨ir, hc, hcmd⟩
    | succ k =>
      exact argFuzzCalls_configurations hT hm' hoff hrest k call' cmd hcall hlevel hcmd

/-- From arrays with every node off, any configurations can be printed one after the other. -/
theorem argFuzzCalls_reach (hT : SpecTable t) : ∀ {configs : List (List Ir)} {mem : Arrays},
    (∀ ir ∈ configs, Configuration t ir) → mem.Fits t → AllOff mem.ir →
    ∃ calls r, (∀ call ∈ calls, call.fuzzLevel = 0) ∧ argFuzzCalls t calls mem = .ok r ∧
      r.1 = configs.map hT.forest.command
  | [], mem, _, _, _ => ⟨[], ([], mem), fun _ h => absurd h List.not_mem_nil, rfl, rfl⟩
  | ir :: configs, mem, hconf, hm, h0 => by
    obtain ⟨d, r, hr, hcmd⟩ := (hconf ir List.mem_cons_self).generated hT hm.bitmap
      ⟨mem.ir, "", fun _ => 0⟩ hm.ir h0
    obtain ⟨bitmap, r', hbm, hr', hm', hoff⟩ :=
      argFuzz_leaves_off hT hm ⟨d, 0, "", fun _ => 0⟩
    rw [hr] at hr'
    cases hr'
    obtain ⟨calls, rest, hlevel, hrest, hcmds⟩ := argFuzzCalls_reach hT
      (fun ir' h => hconf ir' (List.mem_cons_of_mem ir h)) hm' hoff
    refine ⟨⟨d, 0, "", fun _ => 0⟩ :: calls, (r.1 :: rest.1, rest.2), ?_, ?_, ?_⟩
    · intro call hcall
      rcases List.mem_cons.1 hcall with rfl | hcall
      · rfl
      · exact hlevel call hcall
    · rw [argFuzzCalls, hbm, ok_bind, hr, ok_bind, hrest, ok_bind]
      rfl
    · rw [List.map_cons, hcmd, hcmds]

end

/-- **What the arrays held before the first call never shows after it.** On a table like the
shipped ones, calls in a row end, at whatever levels and from whatever the arrays held, and leave
every node off; every level-0 call after the first prints the command of a configuration; and after
the first call, any sequence of configurations can be printed. -/
theorem argFuzzCalls_forget (t : List ArgNode) (hT : SpecTable t) (mem : Arrays)
    (hm : mem.Fits t) (first : Call) :
    (∀ calls, ∃ r, argFuzzCalls t (first :: calls) mem = .ok r ∧
      r.1.length = calls.length + 1 ∧ AllOff r.2.ir ∧
      ∀ (k : Nat) (call : Call) cmd, calls[k]? = some call → call.fuzzLevel = 0 →
        r.1[k + 1]? = some cmd → ∃ ir, Configuration t ir ∧ cmd = hT.forest.command ir) ∧
    ∀ configs : List (List Ir), (∀ ir ∈ configs, Configuration t ir) →
      ∃ calls r, (∀ call ∈ calls, call.fuzzLevel = 0) ∧
        argFuzzCalls t (first :: calls) mem = .ok r ∧
        r.1.tail = configs.map hT.forest.command := by
  obtain ⟨bitmap, r1, hbm, hr1, hm', hoff⟩ := argFuzz_leaves_off hT hm first
  have hcons : ∀ calls rest, argFuzzCalls t calls ⟨r1.2, bitmap⟩ = .ok rest →
      argFuzzCalls t (first :: calls) mem = .ok (r1.1 :: rest.1, rest.2) := by
    intro calls rest hrest
    rw [argFuzzCalls, hbm, ok_bind, hr1, ok_bind, hrest, ok_bind]
    rfl
  refine ⟨fun calls => ?_, fun configs hconf => ?_⟩
  · obtain ⟨rest, hrest, hlen, -, hend⟩ := argFuzzCalls_ends hT calls hm'
    refine ⟨_, hcons calls rest hrest, by simp [hlen], hend (.inr hoff), ?_⟩
    intro k call cmd hcall hlevel hcmd
    exact argFuzzCalls_configurations hT hm' hoff hrest k call cmd hcall hlevel hcmd
  · obtain ⟨calls, rest, hlevel, hrest, hcmds⟩ := argFuzzCalls_reach hT hconf hm' hoff
    exact ⟨calls, _, hlevel, hcons calls rest hrest, hcmds⟩

/-- The second command of `-J` is a configuration although the array starts with every node on. -/
theorem journal_forgets : ∃ r, argFuzzCalls journalTable
      [⟨.least, 0, "", fun _ => 0⟩, ⟨.greatest, 0, "-J", fun _ => 1⟩]
      ⟨[⟨1, 0, ""⟩, ⟨1, 0, ""⟩, ⟨1, 0, ""⟩], [0, 0, 0]⟩ = .ok r ∧
    ∀ cmd, r.1[1]? = some cmd →
      ∃ ir, Configuration journalTable ir ∧ cmd = journal_spec.forest.command ir := by
  obtain ⟨hruns, -⟩ := argFuzzCalls_forget journalTable journal_spec
    ⟨[⟨1, 0, ""⟩, ⟨1, 0, ""⟩, ⟨1, 0, ""⟩], [0, 0, 0]⟩ ⟨rfl, Nat.le_refl 3⟩
    ⟨.least, 0, "", fun _ => 0⟩
  obtain ⟨r, hr, -, -, hconf⟩ := hruns [⟨.greatest, 0, "-J", fun _ => 1⟩]
  exact ⟨r, hr, fun cmd hcmd => hconf 0 _ cmd rfl rfl hcmd⟩

end ConFuzz
