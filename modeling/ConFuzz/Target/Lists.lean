import ConFuzz.Target.Feature
import ConFuzz.Target.Mke2fs
import ConFuzz.Model.Extended

/-!
# `mke2fs` reads the lists of a configuration

The list of `-E` is accepted unless its `resize` is no larger than the file
system, or needs reserved blocks on a revision 0 file system
(`parseExtendedOpts_listArg`). The list of `-O` is always accepted, and sets the
bits of the features that are on (`editFeature_settings`).
-/

namespace ConFuzz

open ConFuzz.CLib ConFuzz.Config

section

variable {t : List ArgNode} {ir : List Ir}

def elementSegment (t : List ArgNode) (ir : List Ir) (c : Int) : List (Word × Option Word) :=
  if On ir c then [elementOf t ir c] else []

theorem map_filter_elementOf (children : List Int) :
    (children.filter fun c => On ir c).map (elementOf t ir) =
      children.flatMap (elementSegment t ir) := by
  rw [List.map_eq_flatMap]
  exact flatMap_enabled _ _

end

namespace Mke2fs

/-! ## `-E` -/

/-- The variables after the list of `-E`, without its `resize`. -/
def extended (ir : List Ir) (e : Extended) : Extended :=
  { e with
    param := { e.param with
      raidStride := if On ir 4 then number ir 4 else e.param.raidStride
      raidStripeWidth := if On ir 5 then number ir 5 else e.param.raidStripeWidth
      flags := if On ir 8 then e.param.flags ||| 4 else e.param.flags }
    lazyItableInit := if On ir 7 then number ir 7 else e.lazyItableInit
    discard := if On ir 10 then false else if On ir 9 then true else e.discard }

def earlyEffects (ir : List Ir) : List (Int × (Extended → Extended)) :=
  [(4, fun e => { e with param := { e.param with
      raidStride := if On ir 4 then number ir 4 else e.param.raidStride } }),
   (5, fun e => { e with param := { e.param with
      raidStripeWidth := if On ir 5 then number ir 5 else e.param.raidStripeWidth } })]

def lateEffects (ir : List Ir) : List (Int × (Extended → Extended)) :=
  [(7, fun e => { e with lazyItableInit := if On ir 7 then number ir 7 else e.lazyItableInit }),
   (8, fun e => { e with param := { e.param with
      flags := if On ir 8 then e.param.flags ||| 4 else e.param.flags } }),
   (9, fun e => { e with discard := if On ir 9 then true else e.discard }),
   (10, fun e => { e with discard := if On ir 10 then false else e.discard })]

section

variable {ir : List Ir} {H : Host} {e : Extended}

/-! ### The arms of the loop -/

section

variable {arg : Option Word}

theorem extendedOpt_stride : extendedOpt H e ("stride".toList, arg) =
    .ok (numberOpt e "stride".toList arg
      (fun n => { e with param := { e.param with raidStride := n % 2 ^ 16 } })
      "Invalid stride parameter: ") := by
  rw [extendedOpt]
  repeat rw [if_neg (by decide)]
  rw [if_pos rfl]

theorem extendedOpt_stripeWidth : extendedOpt H e ("stripe-width".toList, arg) =
    .ok (numberOpt e "stripe-width".toList arg
      (fun n => { e with param := { e.param with raidStripeWidth := n % 2 ^ 32 } })
      "Invalid stripe-width parameter: ") := by
  rw [extendedOpt]
  repeat rw [if_neg (by decide)]
  rw [if_pos (.inl rfl)]

theorem extendedOpt_resize :
    extendedOpt H e ("resize".toList, arg) = resizeOpt e "resize".toList arg := by
  rw [extendedOpt]
  repeat rw [if_neg (by decide)]
  rw [if_pos rfl]

theorem extendedOpt_testFs : extendedOpt H e ("test_fs".toList, arg) =
    .ok { e with param := { e.param with flags := e.param.flags ||| 4 } } := by
  rw [extendedOpt]
  repeat rw [if_neg (by decide)]
  rw [if_pos rfl]

theorem extendedOpt_lazyItableInit : extendedOpt H e ("lazy_itable_init".toList, arg) =
    .ok { e with lazyItableInit := (arg.map fun arg => toInt32 (strtoul arg).1).getD 1 } := by
  rw [extendedOpt]
  repeat rw [if_neg (by decide)]
  rw [if_pos rfl]

theorem extendedOpt_discard :
    extendedOpt H e ("discard".toList, arg) = .ok { e with discard := true } := by
  rw [extendedOpt]
  repeat rw [if_neg (by decide)]
  rw [if_pos rfl]

theorem extendedOpt_nodiscard :
    extendedOpt H e ("nodiscard".toList, arg) = .ok { e with discard := false } := by
  rw [extendedOpt]
  repeat rw [if_neg (by decide)]
  rw [if_pos rfl]

end

/-! ### The elements of a configuration -/

/-- The element of a child is read as the effect says. -/
def ReadsElement (H : Host) (ir : List Ir) (p : Int × (Extended → Extended)) : Prop :=
  ∀ e, (elementSegment table ir p.1).foldlM (extendedOpt H) e = .ok (p.2 e)

theorem ReadsElement.of {c : Int} {f : Extended → Extended} (hoff : ¬ On ir c → ∀ e, f e = e)
    (hon : On ir c → ∀ e, extendedOpt H e (elementOf table ir c) = .ok (f e)) :
    ReadsElement H ir (c, f) := by
  intro e
  show (elementSegment table ir c).foldlM (extendedOpt H) e = .ok (f e)
  unfold elementSegment
  split
  · next h =>
    rw [List.foldlM_cons, hon h e]
    rfl
  · next h =>
    rw [hoff h e]
    rfl

def numberElements : List (Int × String) :=
  [(4, "stride"), (5, "stripe-width"), (6, "resize"), (7, "lazy_itable_init")]

def plainElements : List (Int × String) := [(8, "test_fs"), (9, "discard"), (10, "nodiscard")]

theorem elements_table :
    (∀ r ∈ numberElements, NodeAt table r.1 fun node =>
      elementName node = r.2.toList ∧ (node.valueType = 1 ∨ node.valueType = 2)) ∧
    ∀ r ∈ plainElements, NodeAt table r.1 fun node =>
      elementName node = r.2.toList ∧ ¬ HasValue node := by
  decide +kernel

theorem element_number {c : Int} {name : String} (hr : (c, name) ∈ numberElements) (h : On ir c) :
    elementOf table ir c = (name.toList, some (toString (number ir c)).toList) :=
  elementOf_number (elements_table.1 _ hr) h

theorem element_plain {c : Int} {name : String} (hr : (c, name) ∈ plainElements) (h : On ir c) :
    elementOf table ir c = (name.toList, none) :=
  elementOf_plain (elements_table.2 _ hr) h

theorem numberOpt_toString {token : Word} {set : Nat → Extended} {message : String} {n : Nat}
    (h : n < 2 ^ 64) : numberOpt e token (some (toString n).toList) set message = set n := by
  simp only [numberOpt, strtoul_toString h, ne_eq, not_true_eq_false, if_false]

theorem reads_early (hc : Configuration table ir) : ∀ p ∈ earlyEffects ir, ReadsElement H ir p := by
  simp only [earlyEffects, List.forall_mem_cons]
  refine ⟨?_, ?_, fun p hp => absurd hp List.not_mem_nil⟩
  · refine .of (fun h e => by simp only [h, if_false]) fun h e => ?_
    obtain ⟨m, hn, hm⟩ := range_arithmetic hc (show (4, 1, [0, 1000, 1]) ∈ ranges by decide) h
    rw [element_number (show (4, "stride") ∈ numberElements by decide) h]
    simp only [h, if_true]
    rw [extendedOpt_stride, numberOpt_toString (by omega), Nat.mod_eq_of_lt (by omega)]
  · refine .of (fun h e => by simp only [h, if_false]) fun h e => ?_
    obtain ⟨m, hn, hm⟩ := range_arithmetic hc (show (5, 1, [0, 1000, 1]) ∈ ranges by decide) h
    rw [element_number (show (5, "stripe-width") ∈ numberElements by decide) h]
    simp only [h, if_true]
    rw [extendedOpt_stripeWidth, numberOpt_toString (by omega), Nat.mod_eq_of_lt (by omega)]

theorem reads_late (hc : Configuration table ir) : ∀ p ∈ lateEffects ir, ReadsElement H ir p := by
  simp only [lateEffects, List.forall_mem_cons]
  refine ⟨?_, ?_, ?_, ?_, fun p hp => absurd hp List.not_mem_nil⟩
  · refine .of (fun h e => by simp only [h, if_false]) fun h e => ?_
    obtain ⟨m, hn, hm⟩ := range_arithmetic hc (show (7, 1, [0, 1, 1]) ∈ ranges by decide) h
    rw [element_number (show (7, "lazy_itable_init") ∈ numberElements by decide) h]
    simp only [h, if_true]
    rw [extendedOpt_lazyItableInit, Option.map_some, Option.getD_some, strtoul_toString (by omega),
      toInt32_natCast (by omega)]
  · refine .of (fun h e => by simp only [h, if_false]) fun h e => ?_
    rw [element_plain (show (8, "test_fs") ∈ plainElements by decide) h]
    simp only [h, if_true]
    rw [extendedOpt_testFs]
  · refine .of (fun h e => by simp only [h, if_false]) fun h e => ?_
    rw [element_plain (show (9, "discard") ∈ plainElements by decide) h]
    simp only [h, if_true]
    rw [extendedOpt_discard]
  · refine .of (fun h e => by simp only [h, if_false]) fun h e => ?_
    rw [element_plain (show (10, "nodiscard") ∈ plainElements by decide) h]
    simp only [h, if_true]
    rw [extendedOpt_nodiscard]

theorem foldlM_elements {effects : List (Int × (Extended → Extended))}
    (h : ∀ p ∈ effects, ReadsElement H ir p) :
    ((effects.map Prod.fst).flatMap (elementSegment table ir)).foldlM (extendedOpt H) e =
      .ok (effects.foldl (fun e p => p.2 e) e) := by
  rw [List.flatMap_map]
  exact foldlM_segments (fun _ _ => True) (fun p hp e _ => h p hp e)
    (List.pairwise_of_forall fun _ _ _ _ => trivial) fun _ _ => trivial

/-- The reserved blocks that the list of `-E` asks for. -/
def resized (ir : List Ir) (e : Extended) : Extended :=
  if On ir 6 ∧ 0 < e.param.reservedFor (number ir 6) then
    { e with param := { e.param with
      features := e.param.features.set (e.param.features.compat ||| 0x10) .compat
      reservedGdtBlocks := toU32 (e.param.reservedFor (number ir 6)) % 2 ^ 16 } }
  else e

theorem extendedOpt_elementOf (hc : Configuration table ir) (h : On ir 6) :
    extendedOpt H e (elementOf table ir 6) =
      if number ir 6 = 0 then
        .ok (e.fault ("Invalid resize parameter: " ++ toString (number ir 6)))
      else if number ir 6 ≤ e.param.blocksCount then
        .ok (e.fault "The resize maximum must be greater than the filesystem size.")
      else if e.param.descPerBlock = 0 ∨ e.param.bpg = 0 then .error .divByZero
      else if 0 < e.param.reservedFor (number ir 6) ∧ e.param.revLevel = 0 then
        .error (.exit "On-line resizing not supported with revision 0 filesystems")
      else .ok (resized ir e) := by
  obtain ⟨m, hn, hm⟩ := range_arithmetic hc (show (6, 1, [0, 1000000, 1]) ∈ ranges by decide) h
  rw [element_number (show (6, "resize") ∈ numberElements by decide) h]
  rw [extendedOpt_resize]
  unfold resizeOpt resized
  simp only [parseNumBlocks2_toString (show number ir 6 < 2 ^ 64 by omega), String.ofList_toList, h,
    true_and]
  by_cases hpos : 0 < e.param.reservedFor (number ir 6)
  · simp only [hpos, if_true, true_and]
  · simp only [hpos, if_false, false_and]

theorem resizes_early : ((earlyEffects ir).foldl (fun e p => p.2 e) e).param.descPerBlock =
      e.param.descPerBlock ∧
    ((earlyEffects ir).foldl (fun e p => p.2 e) e).param.bpg = e.param.bpg ∧
    ∀ n, ((earlyEffects ir).foldl (fun e p => p.2 e) e).param.reservedFor n =
      e.param.reservedFor n := by
  refine ⟨rfl, rfl, fun n => ?_⟩
  unfold FsParam.reservedFor
  rfl

theorem late_resized_early : (lateEffects ir).foldl (fun e p => p.2 e)
      (resized ir ((earlyEffects ir).foldl (fun e p => p.2 e) e)) =
    extended ir (resized ir e) := by
  unfold resized
  rw [resizes_early.2.2]
  split
  · rfl
  · rfl

/-- The rest of the list is read, and the end of `parse_extended_opts` looks at the counter. -/
theorem finish_rest (hc : Configuration table ir) :
    ((((lateEffects ir).map Prod.fst).flatMap (elementSegment table ir)).foldlM
      (extendedOpt H) e >>= fun e => e.finish) =
        ((lateEffects ir).foldl (fun e p => p.2 e) e).finish := by
  rw [foldlM_elements (reads_late hc), ok_bind]

theorem finish_late_fault (message : String) (h : e.badopt = none) :
    ((lateEffects ir).foldl (fun e p => p.2 e) (e.fault message)).finish =
      .error (.exit (extendedUsage [])) := by
  have husage : ((lateEffects ir).foldl (fun e p => p.2 e) (e.fault message)).rUsage =
    e.rUsage + 1 := rfl
  have hbad : ((lateEffects ir).foldl (fun e p => p.2 e) (e.fault message)).badopt = e.badopt := rfl
  rw [Extended.finish, if_pos (by omega), hbad, h]
  rfl

/-- **The list of `-E`.** It is refused for a `resize` that is no larger than the file system, and
for one that needs reserved blocks on a revision 0 file system, and for nothing else. Where
a block has no descriptors, `resize` divides by zero. -/
theorem parseExtendedOpts_listArg (hc : Configuration table ir) (e : Extended) :
    parseExtendedOpts H (listArg table ir 3) e =
      if On ir 6 ∧ number ir 6 ≤ e.param.blocksCount then .error (.exit (extendedUsage []))
      else if On ir 6 ∧ (e.param.descPerBlock = 0 ∨ e.param.bpg = 0) then .error .divByZero
      else if On ir 6 ∧ 0 < e.param.reservedFor (number ir 6) ∧ e.param.revLevel = 0 then
        .error (.exit "On-line resizing not supported with revision 0 filesystems")
      else .ok (extended ir (resized ir { e with rUsage := 0, badopt := none, report := [] })) := by
  have htokens := optionTokens_listArg hc (i := 3) (by decide +kernel :
    NodeAt table 3 fun node => node.childId = [4, 5, 6, 7, 8, 9, 10]) (by decide +kernel)
  have hsplit : [(4 : Int), 5, 6, 7, 8, 9, 10] =
      (earlyEffects ir).map Prod.fst ++ 6 :: (lateEffects ir).map Prod.fst := rfl
  unfold parseExtendedOpts
  rw [htokens, map_filter_elementOf, hsplit, List.flatMap_append, List.flatMap_cons,
    List.foldlM_append, foldlM_elements (reads_early hc), ok_bind, List.foldlM_append]
  generalize hstart : ({ e with rUsage := 0, badopt := none, report := [] } : Extended) = start
  have hparam : start.param = e.param := by rw [← hstart]
  have hcount : ((earlyEffects ir).foldl (fun e p => p.2 e) start).param.blocksCount =
      e.param.blocksCount := by
    rw [← hparam]
    rfl
  have hrev : ((earlyEffects ir).foldl (fun e p => p.2 e) start).param.revLevel =
      e.param.revLevel := by
    rw [← hparam]
    rfl
  have hbad : ((earlyEffects ir).foldl (fun e p => p.2 e) start).badopt = none := by
    rw [← hstart]
    rfl
  have husage : (extended ir (resized ir start)).rUsage = 0 := by
    rw [← hstart]
    unfold resized
    split <;> rfl
  rw [bind_assoc]
  by_cases h6 : On ir 6
  · have hseg : elementSegment table ir 6 = [elementOf table ir 6] := if_pos h6
    rw [hseg, foldlM_singleton, extendedOpt_elementOf hc h6, hcount, hrev, resizes_early.1,
      resizes_early.2.1, resizes_early.2.2, hparam]
    simp only [h6, true_and]
    by_cases hle : number ir 6 ≤ e.param.blocksCount
    · -- the fault is counted, and the rest of the list is read
      rw [if_pos hle, if_pos hle]
      split
      · rw [ok_bind, finish_rest hc, finish_late_fault _ hbad]
      · rw [ok_bind, finish_rest hc, finish_late_fault _ hbad]
    · rw [if_neg (by omega), if_neg hle, if_neg hle]
      split
      · rfl
      split
      · rfl
      · rw [ok_bind, finish_rest hc, late_resized_early, Extended.finish,
          if_neg (by rw [husage]; exact fun h => h rfl)]
  · have hseg : elementSegment table ir 6 = [] := if_neg h6
    have hres : resized ir ((earlyEffects ir).foldl (fun e p => p.2 e) start) =
        (earlyEffects ir).foldl (fun e p => p.2 e) start := by
      rw [resized, if_neg fun h => h6 h.1]
    rw [hseg, List.foldlM_nil]
    simp only [h6, false_and, if_false, pure, Except.pure]
    rw [ok_bind, finish_rest hc, ← hres, late_resized_early, Extended.finish,
      if_neg (by rw [husage]; exact fun h => h rfl)]

/-! ## `-O` -/

/-- The features of the list of `-O`. -/
def listedFeatures : List (Int × E2p.Compat × BitVec 32) :=
  [(29, .compat, 0x20), (30, .incompat, 0x40), (31, .incompat, 0x2), (32, .incompat, 0x200),
   (33, .compat, 0x4), (34, .incompat, 0x8), (35, .roIncompat, 0x2), (36, .compat, 0x10),
   (37, .roIncompat, 0x1), (38, .roIncompat, 0x10)]

/-- The node prints as the name of a feature that `-O` may set. -/
def FeatureShape (f : E2p.Compat × BitVec 32) (node : ArgNode) : Prop :=
  ¬ HasValue node ∧ operatorText node.operatorValue = "" ∧ siblingText node = "," ∧
    IsToken isSpace E2p.endsFeature node.arg.toList ∧
    E2p.Names (some okFeatures) node.arg.toList f.1 f.2

instance (f : E2p.Compat × BitVec 32) : DecidablePred (FeatureShape f) := fun _ =>
  inferInstanceAs (Decidable (_ ∧ _))

theorem listedFeatures_shape : ∀ f ∈ listedFeatures, NodeAt table f.1 (FeatureShape f.2) := by
  decide +kernel

theorem leafText_feature {f : Int × E2p.Compat × BitVec 32} (hf : f ∈ listedFeatures)
    (hon : On ir f.1) : (textsOf table ir).sep f.1 = "," ∧
      IsToken isSpace E2p.endsFeature (leafText table ir f.1).toList ∧
      E2p.Names (some okFeatures) (leafText table ir f.1).toList f.2.1 f.2.2 := by
  obtain ⟨node, hn, hv, hop, hsep, htoken, hnames⟩ := listedFeatures_shape f hf
  obtain ⟨cell, hcell, -⟩ := enableOf_eq_some.1 hon
  have htext : (leafText table ir f.1).toList = node.arg.toList := by
    rw [leafText_eq hn hcell, valueText_of_not hv, hop, String.append_empty, String.append_empty]
  rw [htext]
  refine ⟨?_, htoken, hnames⟩
  simp only [textsOf, hn, Option.map_some, Option.getD_some, hsep]

/-- The list of `-O` has the names of the features that are on. -/
theorem tokens_features : tokens isSpace E2p.endsFeature (listArg table ir 28) =
    ((listedFeatures.map Prod.fst).filter fun c => On ir c).map fun c =>
      (leafText table ir c).toList := by
  obtain ⟨node, hn, hchild⟩ := (by decide +kernel :
    NodeAt table 28 fun node => node.childId = listedFeatures.map Prod.fst)
  rw [listArg, hn, Option.map_some, Option.getD_some, tokens_listText rfl, enabledChildren, hchild]
  intro c hmem
  rw [enabledChildren, hchild] at hmem
  obtain ⟨hmem, hon⟩ := List.mem_filter.1 hmem
  obtain ⟨f, hf, rfl⟩ := List.mem_map.1 hmem
  have hleaf := leafText_feature hf (of_decide_eq_true hon)
  exact ⟨hleaf.1, hleaf.2.1⟩

/-- **The list of `-O`.** It is never refused, and sets the bits of the features that are on. -/
theorem editFeature_settings (hc : Configuration table ir) (start : Prs)
    (hstart : start.fsFeatures = none) (F : E2p.Features) :
    ∃ G, editFeature (settings start ir).fsFeatures F = .ok G ∧ ∀ k j,
      (G.get k).getLsbD j = true ↔ (F.get k).getLsbD j = true ∨
        ∃ f ∈ listedFeatures, On ir f.1 ∧ f.2.1 = k ∧ f.2.2.getLsbD j = true := by
  have hfeatures : (settings start ir).fsFeatures =
      if On ir 28 then some (listArg table ir 28) else none := by
    show (if On ir 28 then some (addFeatures start.fsFeatures (listArg table ir 28))
      else start.fsFeatures) = _
    rw [hstart]
    rfl
  by_cases h28 : On ir 28
  · have hnames : ∀ w ∈ tokens isSpace E2p.endsFeature (listArg table ir 28),
        ∃ k m, E2p.Names (some okFeatures) w k m := by
      intro w hw
      rw [tokens_features] at hw
      obtain ⟨c, hmem, rfl⟩ := List.mem_map.1 hw
      obtain ⟨hmem, hon⟩ := List.mem_filter.1 hmem
      obtain ⟨f, hf, rfl⟩ := List.mem_map.1 hmem
      exact ⟨_, _, (leafText_feature hf (of_decide_eq_true hon)).2.2⟩
    obtain ⟨G, hG, hbits⟩ := @E2p.editWords_names (some okFeatures)
      ((none : Option E2p.Features).or (some okFeatures)) _ F hnames
    refine ⟨G, ?_, fun k j => ?_⟩
    · rw [hfeatures, if_pos h28]
      unfold editFeature E2p.editFeature E2p.editFeature2
      simp only [hG, ne_eq, not_true_eq_false, if_false]
    rw [hbits]
    refine or_congr_right ⟨?_, ?_⟩
    · rintro ⟨w, hw, m, hm, hbit⟩
      rw [tokens_features] at hw
      obtain ⟨c, hmem, rfl⟩ := List.mem_map.1 hw
      obtain ⟨hmem, hon⟩ := List.mem_filter.1 hmem
      obtain ⟨f, hf, rfl⟩ := List.mem_map.1 hmem
      have hon := of_decide_eq_true hon
      rw [(leafText_feature hf hon).2.2.feature] at hm
      cases hm
      exact ⟨f, hf, hon, rfl, hbit⟩
    · rintro ⟨f, hf, hon, rfl, hbit⟩
      refine ⟨(leafText table ir f.1).toList, ?_, _, (leafText_feature hf hon).2.2.feature, hbit⟩
      rw [tokens_features]
      exact List.mem_map.2 ⟨f.1, List.mem_filter.2 ⟨List.mem_map.2 ⟨f, hf, rfl⟩,
        decide_eq_true hon⟩, rfl⟩
  · have hoff : ∀ f ∈ listedFeatures, ¬ On ir f.1 := by
      intro f hf hon
      have hdep : ∀ f ∈ listedFeatures, (28 : Int) ∈ (graphOf table).dep f.1 := by decide +kernel
      exact h28 (hc.valid.dep f.1 hon 28 (hdep f hf))
    refine ⟨F, ?_, fun k j => ?_⟩
    · rw [hfeatures, if_neg h28]
      rfl
    · refine (or_iff_left ?_).symm
      rintro ⟨f, hf, hon, -⟩
      exact hoff f hf hon

end

/-! ## Runs -/

/-- **The list of `-E` in every run.** Whatever `mke2fs` knows of the file system by then, it
refuses the list of a generated command for its `resize` only, and ends otherwise only
where `resize` divides by zero. -/
theorem main_extended_list (J : JsonC) (hJ : WholeDoubles J) (heap : Heap)
    (hcells : FreshCells mke2fsOptions heap) (hstray : (heap.node 3).dependencyId = []) (H : Host)
    (hH : ReadsWhole H) (programName : Word) (beforeLinux22 : Bool) (device : Word)
    (hd : device.head? ≠ some '-') (d : Draws) :
    ∃ ir s opts, Configuration table ir ∧
      fuzzed J d heap H programName beforeLinux22 device = .ok (.ok (s, [device])) ∧
      s.extendedOpts = some opts ∧ ∀ e, parseExtendedOpts H opts e =
        if On ir 6 ∧ number ir 6 ≤ e.param.blocksCount then .error (.exit (extendedUsage []))
        else if On ir 6 ∧ (e.param.descPerBlock = 0 ∨ e.param.bpg = 0) then .error .divByZero
        else if On ir 6 ∧ 0 < e.param.reservedFor (number ir 6) ∧ e.param.revLevel = 0 then
          .error (.exit "On-line resizing not supported with revision 0 filesystems")
        else
          .ok (extended ir (resized ir { e with rUsage := 0, badopt := none, report := [] })) := by
  obtain ⟨ir, hc, hrun⟩ := fuzzed_configuration hJ hcells hstray hH programName beforeLinux22 hd d
  have h3 : On ir 3 := hc.valid.mustHave 3 (mem_ids.1 (by decide +kernel)) (by decide +kernel)
  exact ⟨ir, _, listArg table ir 3, hc, hrun, if_pos h3, parseExtendedOpts_listArg hc⟩

theorem plainHeap_extended_list :
    ∃ ir s opts, Configuration table ir ∧
      fuzzed wholeJsonC .least plainHeap decimalHost "mke2fs".toList false "fs.img".toList =
        .ok (.ok (s, ["fs.img".toList])) ∧
      s.extendedOpts = some opts ∧ ∀ e, parseExtendedOpts decimalHost opts e =
        if On ir 6 ∧ number ir 6 ≤ e.param.blocksCount then .error (.exit (extendedUsage []))
        else if On ir 6 ∧ (e.param.descPerBlock = 0 ∨ e.param.bpg = 0) then .error .divByZero
        else if On ir 6 ∧ 0 < e.param.reservedFor (number ir 6) ∧ e.param.revLevel = 0 then
          .error (.exit "On-line resizing not supported with revision 0 filesystems")
        else .ok (extended ir (resized ir { e with rUsage := 0, badopt := none, report := [] })) :=
  main_extended_list wholeJsonC wholeDoubles_wholeJsonC plainHeap (fun _ _ => rfl) rfl
    decimalHost readsWhole_decimalHost "mke2fs".toList false "fs.img".toList (by decide) .least

/-- **The list of `-O` in every run.** `mke2fs` refuses no list of a generated command, and the
bits that it sets are those of the features that are on. A flex group size is given only with
the feature. -/
theorem main_feature_list (J : JsonC) (hJ : WholeDoubles J) (heap : Heap)
    (hcells : FreshCells mke2fsOptions heap) (hstray : (heap.node 3).dependencyId = []) (H : Host)
    (hH : ReadsWhole H) (programName : Word) (beforeLinux22 : Bool) (device : Word)
    (hd : device.head? ≠ some '-') (d : Draws) :
    ∃ ir s, Configuration table ir ∧
      fuzzed J d heap H programName beforeLinux22 device = .ok (.ok (s, [device])) ∧
      ∀ F, ∃ G, editFeature s.fsFeatures F = .ok G ∧
        (∀ k j, (G.get k).getLsbD j = true ↔ (F.get k).getLsbD j = true ∨
          ∃ f ∈ listedFeatures, On ir f.1 ∧ f.2.1 = k ∧ f.2.2.getLsbD j = true) ∧
        (s.flexBgSize ≠ 0 → G.incompat &&& 0x200 ≠ 0) := by
  obtain ⟨ir, hc, hrun⟩ := fuzzed_configuration hJ hcells hstray hH programName beforeLinux22 hd d
  refine ⟨ir, _, hc, hrun, fun F => ?_⟩
  obtain ⟨G, hG, hbits⟩ := editFeature_settings hc (prsStart programName beforeLinux22) rfl F
  refine ⟨G, hG, hbits, fun hflex hzero => ?_⟩
  have h13 : On ir 13 := by
    by_contra h
    exact hflex (if_neg h)
  have h32 : On ir 32 := hc.valid.dep 13 h13 32 (by decide +kernel)
  have hset : (G.get .incompat).getLsbD 9 = true :=
    (hbits .incompat 9).2 (.inr ⟨(32, .incompat, 0x200), by decide, h32, rfl, by decide⟩)
  have hclear : (G.get .incompat &&& 0x200).getLsbD 9 = false := by
    rw [show G.get .incompat &&& 0x200 = 0 from hzero]
    rfl
  rw [BitVec.getLsbD_and, hset] at hclear
  exact absurd hclear (by decide)

theorem plainHeap_feature_list :
    ∃ ir s, Configuration table ir ∧
      fuzzed wholeJsonC .least plainHeap decimalHost "mke2fs".toList false "fs.img".toList =
        .ok (.ok (s, ["fs.img".toList])) ∧
      ∀ F, ∃ G, editFeature s.fsFeatures F = .ok G ∧
        (∀ k j, (G.get k).getLsbD j = true ↔ (F.get k).getLsbD j = true ∨
          ∃ f ∈ listedFeatures, On ir f.1 ∧ f.2.1 = k ∧ f.2.2.getLsbD j = true) ∧
        (s.flexBgSize ≠ 0 → G.incompat &&& 0x200 ≠ 0) :=
  main_feature_list wholeJsonC wholeDoubles_wholeJsonC plainHeap (fun _ _ => rfl) rfl
    decimalHost readsWhole_decimalHost "mke2fs".toList false "fs.img".toList (by decide) .least

end Mke2fs

end ConFuzz
