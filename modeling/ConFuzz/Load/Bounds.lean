import ConFuzz.Emit.Steps
import ConFuzz.Load.Document
import ConFuzz.Resolve.Coverage
import Mathlib.Algebra.BigOperators.Group.List.Basic
import Mathlib.Data.Nat.Find

/-!
# A whole run of `main`

Nothing in the program compares an index with the length of what it indexes:
ids, listed ids, weights and value lists are used as the document has them.
`SafeNode` says what an object must look like for this to be right. Then every
index of a run of `main` stays inside its allocation (`main_inBounds`): of the
faults of the model only a division by a step of 0 is left. Whether the pointers
of the texts are valid is another question.
-/

namespace ConFuzz

open ConFuzz.CLib

/-! ## The table -/

section

variable {d : Draws} {t : List ArgNode}

/-- The indices that a node gives rise to in a table of `n` nodes are inside. -/
structure NodeInBounds (n : Nat) (node : ArgNode) : Prop where
  mutex : ∀ m ∈ node.mutex.getD [], 0 ≤ m ∧ m < n
  single : (node.mutex.getD []).length ≤ 1
  dep : ∀ m ∈ node.dependencyId, 0 ≤ m ∧ m < n
  child : ∀ m ∈ node.childId, 0 ≤ m ∧ m < n
  arithmetic : node.valueType = 1 → 3 ≤ node.valueInt.length
  geometric : node.valueType = 2 → 4 ≤ node.valueInt.length
  strings : node.valueType = 4 → node.valueCharArray ≠ []

def ZeroStep (node : ArgNode) : Prop := node.valueType = 1 ∧ node.valueInt[2]? = some 0

theorem NodeInBounds.valueOK {n : Nat} {node : ArgNode} (h : NodeInBounds n node)
    (hz : ¬ ZeroStep node) : ValueOK node :=
  ⟨fun hty => ⟨h.arithmetic hty, fun hc => hz ⟨hty, hc⟩⟩, h.geometric, h.strings⟩

theorem tableOK_of_inBounds (ht : ∀ node ∈ t, NodeInBounds t.length node)
    (hz : ∀ node ∈ t, ¬ ZeroStep node) : TableOK t :=
  ⟨fun node hn => (ht node hn).mutex, fun node hn => (ht node hn).dep,
    fun node hn => (ht node hn).child, fun node hn => (ht node hn).valueOK (hz node hn)⟩

theorem selectValue_zeroStep {node : ArgNode} {i : Int} {s : Run} (hz : ZeroStep node) :
    selectValue d node i s = .error .divByZero := by
  obtain ⟨hty, hc⟩ := hz
  obtain ⟨hlen, -⟩ := List.getElem?_eq_some_iff.1 hc
  obtain ⟨b, hb⟩ := at?_of_mem_range (l := node.valueInt) (i := 1) (by omega) (by omega)
  obtain ⟨a, ha⟩ := at?_of_mem_range (l := node.valueInt) (i := 0) (by omega) (by omega)
  have hc : at? node.valueInt 2 = some 0 := hc
  unfold selectValue
  rw [hty]
  simp only [rd_eq_ok.2 hb, rd_eq_ok.2 ha, rd_eq_ok.2 hc, ok_bind, ↓reduceIte]

/-- The first step of 0 stops the first loop. -/
theorem select_zeroStep (ht : ∀ node ∈ t, NodeInBounds t.length node) {bitmap : List Nat}
    {ir : List Ir} (hl : ir.length = t.length) (hb : t.length ≤ bitmap.length)
    (hz : ∃ node ∈ t, ZeroStep node) :
    forUpto t.length (selectStep d t bitmap) ⟨ir, 0⟩ = .error .divByZero := by
  classical
  have hex : ∃ k : Nat, ∃ node, at? t k = some node ∧ ZeroStep node := by
    obtain ⟨node, hn, hz⟩ := hz
    obtain ⟨k, hk⟩ := List.mem_iff_getElem?.1 hn
    exact ⟨k, node, (at?_natCast t k).trans hk, hz⟩
  obtain ⟨node, hn, hz⟩ := Nat.find_spec hex
  obtain ⟨-, hk⟩ := range_of_at? hn
  obtain ⟨s, hs, hls⟩ : ∃ s, forUpto (Nat.find hex) (selectStep d t bitmap) ⟨ir, 0⟩ = .ok s ∧
      s.ir.length = t.length := by
    refine forUpto_total (fun _ (s : Run) => s.ir.length = t.length) hl fun i s hi hI => ?_
    obtain ⟨node', hn'⟩ := at?_of_mem_range (l := t) (i := i) (by omega) (by omega)
    have hz' : ¬ ZeroStep node' := fun h => Nat.find_min hex hi ⟨node', hn', h⟩
    exact selectStep_total hI hn' ((ht node' (mem_of_at? hn')).valueOK hz') hb
  obtain ⟨ir', -, heq⟩ := selectStep_eq (d := d) hls hn hb
  exact forUpto_error hs (heq.trans (selectValue_zeroStep hz)) (by omega)

/-- **A level-0 call of `arg_fuzz` ends**, or stops at a step of 0. -/
theorem argFuzz_inBounds (ht : ∀ node ∈ t, NodeInBounds t.length node) {argBitmap : List Nat}
    (mem : Stale) (hl : mem.ir.length = t.length) (hb : t.length ≤ argBitmap.length) :
    (∃ r, argFuzz d t t.length argBitmap 0 mem = .ok r) ∨
      argFuzz d t t.length argBitmap 0 mem = .error .divByZero ∧ ∃ node ∈ t, ZeroStep node := by
  obtain ⟨bitmap, hbm, hbl, -⟩ := bitmapFuzz_spec (d := d) hb
  rw [← hbl] at hb
  unfold argFuzz
  rw [hbm, ok_bind]
  by_cases hz : ∃ node ∈ t, ZeroStep node
  · refine .inr ⟨?_, hz⟩
    unfold atEmission
    rw [select_zeroStep ht hl hb hz]
    rfl
  · left
    push Not at hz
    have hle : ∀ i, ((graphOf t).mutex i).length ≤ 1 := mutex_le_one_iff.2 fun i hi => by
      obtain ⟨node, hn⟩ := at?_of_inTable (mem_ids.1 hi) rfl
      rw [graphOf_mutex hn]
      exact (ht node (mem_of_at? hn)).single
    obtain ⟨s, hs, hls⟩ := atEmission_total (d := d) (tableOK_of_inBounds ht hz) hle hl hb
    obtain ⟨o, ho, hlo⟩ : ∃ o, emitLoop t mem.last t.length s.ir mem.branch = .ok o ∧
        o.ir.length = t.length := emitLoop_total (fun node hn => (ht node hn).child) hls mem.branch
    obtain ⟨ir', hir, -⟩ := clear_total hlo
    exact ⟨(o.cmd, ir'), by rw [hs, ok_bind, ho, ok_bind, hir]; rfl⟩

/-! ## The bitmap -/

/-- `bitmap_len` is the sum of the weights, as an `int`. -/
theorem bitmapLen_eq (t : List ArgNode) :
    bitmapLen t t.length = .ok (toInt32 (t.map (·.weight)).sum) := by
  obtain ⟨len, h, rfl⟩ : ∃ len, bitmapLen t t.length = .ok len ∧
      len = toInt32 ((t.take t.length).map (·.weight)).sum := by
    refine forUpto_total (fun k len => len = toInt32 ((t.take k).map (·.weight)).sum) rfl ?_
    rintro k len hk rfl
    have hn : at? t k = some t[k] := by
      rw [at?_natCast, List.getElem?_eq_getElem hk]
    refine ⟨_, bind_eq_ok.2 ⟨t[k], rd_eq_ok.2 hn, rfl⟩, ?_⟩
    rw [toInt32_add, List.take_succ_eq_append_getElem hk, List.map_append, List.sum_append]
    simp
  rw [List.take_length] at h
  exact h

end

/-! ## The document -/

section

variable {J : JsonC} {members : List (String × Json)}

def weightOf (J : JsonC) (members : List (String × Json)) : Int :=
  intOr J 1 (memberOf members "weight")

/-- An object whose indices stay inside a table of `n` nodes. -/
structure SafeNode (J : JsonC) (n : Nat) (members : List (String × Json)) : Prop where
  present : ∀ f : Field, f ∈ [.valueType, .value, .mutex, .weight, .dependencyId, .childId] →
    ∃ v, (f.key, v) ∈ members
  ids : ∀ f : Field, f ∈ [.mutex, .dependencyId, .childId] →
    ∀ v ∈ specList (memberOf members f.key), 0 ≤ J.getInt v ∧ J.getInt v < n
  mutex : (specList (memberOf members "mutex")).length ≤ 1
  arithmetic : intOr J 0 (memberOf members "value_type") = 1 →
    3 ≤ (specList (memberOf members "value")).length
  geometric : intOr J 0 (memberOf members "value_type") = 2 →
    4 ≤ (specList (memberOf members "value")).length
  strings : intOr J 0 (memberOf members "value_type") = 4 →
    specList (memberOf members "value") ≠ []

/-- An object whose value has a step of 0, as an `unsigned long`. -/
def ZeroStepObject (J : JsonC) (members : List (String × Json)) : Prop :=
  intOr J 0 (memberOf members "value_type") = 1 ∧
    ((specList (memberOf members "value")).map fun x => toU64 (J.getInt x))[2]? = some 0

theorem Loaded.fieldIs {key : Option String} {node : ArgNode} {n : Nat} {f : Field}
    (ho : NodeObject J members) (hs : SafeNode J n members) (h : Loaded J key members node)
    (hf : f ∈ [.valueType, .value, .mutex, .weight, .dependencyId, .childId]) :
    FieldIs J f (memberOf members f.key) node := by
  obtain ⟨v, hv⟩ := hs.present f hf
  rw [memberOf_eq ho.keys hv]
  refine h.field f v hv ⟨?_, ?_⟩
  · rintro rfl
    simp at hf
  · rintro rfl
    simp at hf

theorem Loaded.values {key : Option String} {node : ArgNode} {n : Nat}
    (ho : NodeObject J members) (hs : SafeNode J n members) (h : Loaded J key members node)
    (hne : specList (memberOf members "value") ≠ []) :
    (node.valueType = 1 ∨ node.valueType = 2 → node.valueInt =
      (specList (memberOf members "value")).map fun x => toU64 (J.getInt x)) ∧
    (node.valueType = 4 → node.valueCharArray =
      (specList (memberOf members "value")).map J.getString) := by
  have hnull : memberOf members "value" ≠ .null := fun h => hne (by rw [h]; rfl)
  obtain ⟨hints, -, htexts⟩ :=
    (valueIs_of_ne_null hnull).1 (h.fieldIs (f := .value) ho hs (by simp))
  refine ⟨fun hty => ?_, fun hty => ?_⟩
  · obtain ⟨l, hl, he⟩ := hints hty
    rw [he, (elements_eq_specList hl).2]
  · obtain ⟨l, hl, he⟩ := htexts hty
    rw [he, (elements_eq_specList hl).2]

theorem Loaded.inBounds {key : Option String} {node : ArgNode} {n : Nat}
    (ho : NodeObject J members) (hs : SafeNode J n members) (h : Loaded J key members node) :
    NodeInBounds n node := by
  have hfield := fun f hf => h.fieldIs (f := f) ho hs hf
  have hids : ∀ f : Field, f ∈ [.mutex, .dependencyId, .childId] → ∀ ids,
      loadIds J (memberOf members f.key) = .ok ids → ∀ m ∈ ids, 0 ≤ m ∧ m < n := by
    intro f hf ids hload m hm
    rw [loadIds_specList hload] at hm
    obtain ⟨v, hv, rfl⟩ := List.mem_map.1 hm
    exact hs.ids f hf v hv
  have htype : node.valueType = intOr J 0 (memberOf members "value_type") :=
    hfield .valueType (by simp)
  refine ⟨hids .mutex (by simp) _ (hfield .mutex (by simp)), ?_,
    hids .dependencyId (by simp) _ (hfield .dependencyId (by simp)),
    hids .childId (by simp) _ (hfield .childId (by simp)), fun hty => ?_, fun hty => ?_,
    fun hty => ?_⟩
  · rw [loadIds_specList (hfield .mutex (by simp)), List.length_map]
    exact hs.mutex
  · have hlen := hs.arithmetic (htype.symm.trans hty)
    rw [(h.values ho hs (List.ne_nil_of_length_pos (by omega))).1 (.inl hty), List.length_map]
    exact hlen
  · have hlen := hs.geometric (htype.symm.trans hty)
    rw [(h.values ho hs (List.ne_nil_of_length_pos (by omega))).1 (.inr hty), List.length_map]
    exact hlen
  · have hne := hs.strings (htype.symm.trans hty)
    rw [(h.values ho hs hne).2 hty]
    simpa using hne

theorem Loaded.zeroStep {key : Option String} {node : ArgNode} {n : Nat}
    (ho : NodeObject J members) (hs : SafeNode J n members) (h : Loaded J key members node)
    (hz : ZeroStep node) : ZeroStepObject J members := by
  obtain ⟨hty, hc⟩ := hz
  have htype : node.valueType = intOr J 0 (memberOf members "value_type") :=
    h.fieldIs (f := .valueType) ho hs (by simp)
  have hlen := hs.arithmetic (htype.symm.trans hty)
  rw [(h.values ho hs (List.ne_nil_of_length_pos (by omega))).1 (.inl hty)] at hc
  exact ⟨htype.symm.trans hty, hc⟩

theorem LoadedObjects.of_mem {arr : List ArgNode} {node : ArgNode} (h : SpecDoc J members)
    (hload : LoadedObjects J (memberObjects members).length (memberObjects members) arr)
    (hn : node ∈ arr) : ∃ o ∈ memberObjects members, Loaded J o.1 o.2 node := by
  obtain ⟨hl, hobj⟩ := hload
  obtain ⟨k, hk⟩ := List.mem_iff_getElem?.1 hn
  obtain ⟨hlt, -⟩ := List.getElem?_eq_some_iff.1 hk
  obtain ⟨o, ho, hid, -⟩ := h.keyed.exists_object (hl ▸ hlt)
  obtain ⟨node', hn', hloaded⟩ := hobj o ho
  rw [hid, at?_natCast, hk] at hn'
  cases hn'
  exact ⟨o, ho, hloaded⟩

/-- The table has the weights of the objects, in another order. -/
theorem LoadedObjects.weights {arr : List ArgNode} (h : SpecDoc J members)
    (hsafe : ∀ o ∈ memberObjects members, SafeNode J (memberObjects members).length o.2)
    (hload : LoadedObjects J (memberObjects members).length (memberObjects members) arr) :
    (arr.map (·.weight)).sum = ((memberObjects members).map fun o => weightOf J o.2).sum := by
  obtain ⟨hl, hobj⟩ := hload
  have hw : (memberObjects members).map (fun o => weightOf J o.2) =
      ((memberObjects members).map fun o => idOf J o.2).map
        fun i => ((at? arr i).map (·.weight)).getD 0 := by
    rw [List.map_map]
    refine List.map_congr_left fun o ho => ?_
    obtain ⟨node, hn, hloaded⟩ := hobj o ho
    have hweight : node.weight = weightOf J o.2 :=
      hloaded.fieldIs (f := .weight) (h.node o ho) (hsafe o ho) (by simp)
    simp [hn, hweight]
  have hids := h.ids
  rw [← hl] at hids
  rw [hw, (hids.map _).sum_eq, map_at?_range arr fun c => (c.map (·.weight)).getD 0]
  rfl

end

/-- **The indices of a run stay inside.** On a document whose objects are safe and whose weights
make room for a byte for each node, no run of `main` leaves an allocation or misses an
array, whatever it draws and whatever the memory held. It faults only at a step of 0. -/
theorem main_inBounds (J : JsonC) (members : List (String × Json)) (h : SpecDoc J members)
    (hsafe : ∀ o ∈ memberObjects members, SafeNode J (memberObjects members).length o.2)
    (hweight : ((memberObjects members).length : Int) ≤
      toInt32 ((memberObjects members).map fun o => weightOf J o.2).sum)
    (d : Draws) (heap : Heap) (fault : Fault)
    (hfault : main J d heap (.obj members) = .error fault) :
    fault = .divByZero ∧ ∃ o ∈ memberObjects members, ZeroStepObject J o.2 := by
  obtain ⟨arr, harr, hload⟩ := jsonTreeParse_loads h (length_malloc heap.node _)
  have hl := hload.1
  have ht : ∀ node ∈ arr, NodeInBounds arr.length node := by
    intro node hn
    obtain ⟨o, ho, hloaded⟩ := hload.of_mem h hn
    rw [hl]
    exact hloaded.inBounds (h.node o ho) (hsafe o ho)
  have hbits := bitmapLen_eq arr
  rw [hload.weights h hsafe] at hbits
  have hroom : arr.length ≤ (malloc heap.byte
      (toInt32 ((memberObjects members).map fun o => weightOf J o.2).sum)).length := by
    rw [malloc, List.length_map, List.length_range]
    omega
  have hcells : (malloc heap.cell arr.length).length = arr.length := length_malloc heap.cell _
  have hcount : ((memberObjects members).length : Int) + 1 - 1 = arr.length := by
    rw [hl]
    omega
  have hmain : main J d heap (.obj members) = (argFuzz d arr arr.length (malloc heap.byte
      (toInt32 ((memberObjects members).map fun o => weightOf J o.2).sum)) 0
      ⟨malloc heap.cell arr.length, heap.branch, heap.last⟩ >>= fun r => .ok r.1) := by
    unfold main
    rw [jsoCount_visit, ok_bind]
    simp only [hcount, Int.toNat_natCast]
    rw [hl, harr, ok_bind, ← hl, hbits, ok_bind]
    rfl
  rw [hmain] at hfault
  rcases argFuzz_inBounds (d := d) ht ⟨malloc heap.cell arr.length, heap.branch, heap.last⟩ hcells
    hroom with ⟨r, hr⟩ | ⟨hr, node, hn, hz⟩
  · rw [hr] at hfault
    cases hfault
  · obtain ⟨o, ho, hloaded⟩ := hload.of_mem h hn
    rw [hr] at hfault
    cases hfault
    exact ⟨rfl, o, ho, hloaded.zeroStep (h.node o ho) (hsafe o ho) hz⟩

theorem rangeMembers_safe {J : JsonC} {id : Int} {dependency child : Json}
    {nested : List (String × Json)} {n : Nat}
    (hd : ∀ v ∈ specList dependency, 0 ≤ J.getInt v ∧ J.getInt v < n)
    (hc : ∀ v ∈ specList child, 0 ≤ J.getInt v ∧ J.getInt v < n) :
    SafeNode J n (rangeMembers id dependency child nested) := by
  refine ⟨fun f _ => rangeMembers_all f, fun f hf v hv => ?_, ?_, ?_, ?_, ?_⟩
  · cases f with
    | mutex => exact absurd hv List.not_mem_nil
    | dependencyId => exact hd v hv
    | childId => exact hc v hv
    | _ => simp at hf
  · exact Nat.zero_le 1
  · intro _
    exact Nat.le_refl 3
  · intro h
    cases h
  · intro _
    exact List.cons_ne_nil _ _

/-- The nested document is safe and its steps are 2, so a run on it does not fault. -/
theorem strideDoc_inBounds :
    ¬ ∃ fault, main plainJsonC .least plainHeap (.obj strideDoc) = .error fault := by
  have hsafe : ∀ o ∈ memberObjects strideDoc,
      SafeNode plainJsonC (memberObjects strideDoc).length o.2 := by
    intro o ho
    rw [strideDoc_objects] at ho ⊢
    rcases List.mem_cons.1 ho with rfl | ho
    · exact rangeMembers_safe (by decide) (by decide)
    · rw [List.mem_singleton.1 ho]
      exact rangeMembers_safe (by decide) (by decide)
  have hweight : ((memberObjects strideDoc).length : Int) ≤
      toInt32 ((memberObjects strideDoc).map fun o => weightOf plainJsonC o.2).sum := by
    rw [strideDoc_objects]
    decide
  have hstep : ¬ ∃ o ∈ memberObjects strideDoc, ZeroStepObject plainJsonC o.2 := by
    rw [strideDoc_objects]
    rintro ⟨o, ho, -, hz⟩
    rcases List.mem_cons.1 ho with rfl | ho
    · exact absurd hz (by decide)
    · rw [List.mem_singleton.1 ho] at hz
      exact absurd hz (by decide)
  rintro ⟨fault, hfault⟩
  exact hstep (main_inBounds plainJsonC strideDoc strideDoc_spec hsafe hweight .least plainHeap
    fault hfault).2

/-- An `id` that is not below the number of objects is used all the same. -/
theorem wildId_outOfBounds :
    main plainJsonC .least plainHeap (.obj [("-a", .obj [("id", .int 5)])]) =
      .error (.outOfBounds 1 5) := by
  rfl

end ConFuzz
