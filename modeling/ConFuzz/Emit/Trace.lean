import ConFuzz.Emit.Steps
import Mathlib.Algebra.GroupWithZero.Nat

/-!
# The events of the emission loop

`branchGenerateLog` and `emitLoopLog` are the emission loop with a record of
what it does: the calls that find their node on, and what every `strcpy` and
`strcat` leaves in its buffer. Without the record they are `branchGenerate` and
`emitLoop` (`emitLoopLog_erase`).

`Emits` says what a part of a run does: the nodes it visits were on and are 2
afterwards, nothing else changes, and `branch` grows by a bounded number of
bytes. It composes, so a call and the whole loop come down to their statements.
-/

namespace ConFuzz

open ConFuzz.CLib

/-! ## The loop with a record -/

/-- A call that finds its node on, or the content of a buffer after a write. -/
inductive Event where
  | visit (id : Int)
  | branch (text : String)
  | cmd (text : String)
  deriving DecidableEq, Repr

def Event.visited : Event → Option Int
  | .visit id => some id
  | _ => none

def visitsOf (log : List Event) : List Int := log.filterMap Event.visited

/-- The state of `branch_generate` with the events so far. -/
structure Logged extends Branch where
  log : List Event
  deriving DecidableEq, Repr

def Logged.strcpy (s : Logged) (text : String) : Logged :=
  { s with branch := text, log := s.log ++ [.branch text] }

def Logged.strcat (s : Logged) (text : String) : Logged := s.strcpy (s.branch ++ text)

/-- The name of a node starts the branch, or continues it. -/
def Logged.name (s : Logged) (node : ArgNode) : Logged :=
  if node.dependencyId = [] then s.strcpy node.arg else s.strcat node.arg

/-- An operator, unless it is `"NULL"`. -/
def Logged.operator (s : Logged) (operator : String) : Logged :=
  if operator = "NULL" then s else s.strcat operator

/-- The value of a leaf, if its type has one. -/
def Logged.value (s : Logged) (node : ArgNode) (cell : Ir) : Logged :=
  if node.valueType = 1 ∨ node.valueType = 2 ∨ node.valueType = 3 ∨ node.valueType = 4 then
    s.strcat (valueText node cell)
  else s

/-- The separator of a node, unless it is the last sibling. -/
def Logged.sibling (s : Logged) (node : ArgNode) (lastSibling : Bool) : Logged :=
  if lastSibling then s else s.strcat (siblingText node)

/-- `branch_generate` with its events. -/
def branchGenerateLog (argArray : List ArgNode) (stale : Int → Int) :
    Nat → Logged → Int → Bool → Except Fault (Bool × Logged)
  | 0, _, _, _ => .error .outOfFuel
  | fuel + 1, s, id, lastSibling => do
    let cell ← rd s.ir id
    if cell.enable = 1 then do
      let ir ← setEnable s.ir id 2
      let node ← rd argArray id
      let s := Logged.name ⟨⟨ir, s.branch⟩, s.log ++ [.visit id]⟩ node
      if node.childId ≠ [] then do
        let s := s.operator node.operatorChild
        let last ← lastEnabled s.ir node.childId (stale id)
        let s ← node.childId.foldlM (fun s c => do
          let r ← branchGenerateLog argArray stale fuel s c (c == last)
          return r.2) s
        return (true, s.sibling node lastSibling)
      else do
        let s := s.operator node.operatorValue
        let cell ← rd s.ir id
        let s := (s.value node cell).sibling node lastSibling
        let ir ← setEnable s.ir id 2
        return (true, { s with ir })
    else return (false, s)

structure LoggedOutput extends Output where
  log : List Event
  deriving DecidableEq, Repr

/-- One turn of the emission loop with its events: `strcat(cmd, branch)` and `*branch = '\0'`
after a call that emits. -/
def emitStepLog (argArray : List ArgNode) (stale : Int → Int) (i : Nat) (o : LoggedOutput) :
    Except Fault LoggedOutput := do
  let r ← branchGenerateLog argArray stale (o.ir.length + 1) ⟨⟨o.ir, o.branch⟩, o.log⟩ i false
  if r.1 then
    return ⟨⟨r.2.ir, "", o.cmd ++ r.2.branch⟩,
      r.2.log ++ [.cmd (o.cmd ++ r.2.branch), .branch ""]⟩
  else return ⟨⟨r.2.ir, r.2.branch, o.cmd⟩, r.2.log⟩

def emitLoopLog (argArray : List ArgNode) (stale : Int → Int) (argCount : Nat) (ir : List Ir)
    (branch : String) : Except Fault LoggedOutput :=
  forUpto argCount (emitStepLog argArray stale) ⟨⟨ir, branch, " "⟩, [.cmd " "]⟩

section

variable {t : List ArgNode} {stale : Int → Int}

/-! ## Without the record -/

@[simp] theorem Logged.name_toBranch (s : Logged) (node : ArgNode) :
    (s.name node).toBranch = ⟨s.ir, startText node s.branch⟩ := by
  unfold Logged.name startText
  split
  · rfl
  · rfl

@[simp] theorem Logged.operator_toBranch (s : Logged) (operator : String) :
    (s.operator operator).toBranch = ⟨s.ir, s.branch ++ operatorText operator⟩ := by
  unfold Logged.operator operatorText
  split
  · rw [String.append_empty]
  · rfl

@[simp] theorem Logged.value_toBranch (s : Logged) (node : ArgNode) (cell : Ir) :
    (s.value node cell).toBranch = ⟨s.ir, s.branch ++ valueText node cell⟩ := by
  unfold Logged.value
  split
  · rfl
  · rename_i hty
    have hempty : valueText node cell = "" := by
      unfold valueText
      rw [if_neg (by omega), if_neg (by omega)]
    rw [hempty, String.append_empty]

@[simp] theorem Logged.sibling_toBranch (s : Logged) (node : ArgNode) (lastSibling : Bool) :
    (s.sibling node lastSibling).toBranch = ⟨s.ir, endText node lastSibling s.branch⟩ := by
  unfold Logged.sibling endText
  split
  · rfl
  · rfl

theorem Logged.mk_toBranch {s : Logged} {st : Branch} (h : s.toBranch = st) :
    (⟨st, s.log⟩ : Logged) = s := by
  rw [← h]

theorem branchGenerateLog_alike : ∀ (fuel : Nat) (s : Logged) (id : Int) (lastSibling : Bool),
    Alike (fun r r' => r.1 = r'.1 ∧ r.2.toBranch = r'.2)
      (branchGenerateLog t stale fuel s id lastSibling)
      (branchGenerate t stale fuel s.toBranch id lastSibling)
  | 0, _, _, _ => rfl
  | fuel + 1, s, id, lastSibling => by
    unfold branchGenerateLog branchGenerate
    refine (Alike.self (rd s.ir id)).bind ?_
    rintro cell _ ⟨rfl, -⟩
    by_cases hon : cell.enable = 1
    · rw [if_pos hon, if_pos hon]
      refine (Alike.self (setEnable s.ir id 2)).bind ?_
      rintro ir _ ⟨rfl, -⟩
      refine (Alike.self (rd t id)).bind ?_
      rintro node _ ⟨rfl, -⟩
      by_cases hnil : node.childId = []
      · simp only [hnil, ne_eq, not_true_eq_false, ↓reduceIte, Logged.operator_toBranch,
          Logged.name_toBranch, Logged.value_toBranch, Logged.sibling_toBranch]
        refine (Alike.self (rd ir id)).bind ?_
        rintro cell' _ ⟨rfl, -⟩
        refine (Alike.self (setEnable ir id 2)).bind ?_
        rintro ir' _ ⟨rfl, -⟩
        exact ⟨rfl, rfl⟩
      · simp only [hnil, ne_eq, not_false_eq_true, ↓reduceIte, Logged.operator_toBranch,
          Logged.name_toBranch]
        refine (Alike.self (lastEnabled ir node.childId (stale id))).bind ?_
        rintro last _ ⟨rfl, -⟩
        refine Alike.bind (foldlM_rel (R := fun s st => s.toBranch = st) ?_ ?_) ?_
        · simp only [Logged.operator_toBranch, Logged.name_toBranch]
          rfl
        · rintro c s1 _ - rfl
          refine (branchGenerateLog_alike fuel s1 c (c == last)).bind ?_
          rintro r r' ⟨-, h⟩
          exact h
        · rintro s1 _ rfl
          exact ⟨rfl, Logged.sibling_toBranch s1 node lastSibling⟩
    · rw [if_neg hon, if_neg hon]
      exact ⟨rfl, rfl⟩

/-- **Without its record the loop is the emission loop.** -/
theorem emitLoopLog_erase (t : List ArgNode) (stale : Int → Int) (argCount : Nat)
    (ir : List Ir) (branch : String) :
    (emitLoopLog t stale argCount ir branch).map (·.toOutput) =
      emitLoop t stale argCount ir branch := by
  have halike : Alike (fun (o : LoggedOutput) o' => o.toOutput = o')
      (emitLoopLog t stale argCount ir branch) (emitLoop t stale argCount ir branch) := by
    refine forUpto_rel (fun _ (o : LoggedOutput) o' => o.toOutput = o') rfl ?_
    rintro i o _ - rfl
    unfold emitStepLog emitStep
    refine (branchGenerateLog_alike _ _ _ _).bind ?_
    rintro r ⟨emitted, _⟩ ⟨hr, rfl⟩
    rw [hr]
    cases emitted with
    | true => exact rfl
    | false => exact rfl
  rw [halike.map_eq (g := id)]
  cases emitLoop t stale argCount ir branch with
  | error e => rfl
  | ok o => rfl

/-! ## What a part of a run does -/

/-- The nodes `ids` are on before and 2 afterwards, and nothing else changes. -/
structure Visits (ir ir' : List Ir) (ids : List Int) : Prop where
  nodup : ids.Nodup
  on : ∀ i ∈ ids, On ir i
  cell : ∀ j, at? ir' j =
    if j ∈ ids then (at? ir j).map fun cell => { cell with enable := 2 } else at? ir j

theorem Visits.refl (ir : List Ir) : Visits ir ir [] :=
  ⟨List.nodup_nil, fun _ h => absurd h List.not_mem_nil, fun _ => rfl⟩

theorem Visits.not_on {ir ir' : List Ir} {ids : List Int} (h : Visits ir ir' ids) {i : Int}
    (hi : i ∈ ids) : ¬ On ir' i := by
  obtain ⟨cell, hc, -⟩ := enableOf_eq_some.1 (h.on i hi)
  simp [On, enableOf, h.cell i, hi, hc]

theorem Visits.on_iff {ir ir' : List Ir} {ids : List Int} (h : Visits ir ir' ids) {i : Int}
    (hi : i ∉ ids) : On ir' i ↔ On ir i := by
  simp [On, enableOf, h.cell i, hi]

theorem Visits.off {ir ir' : List Ir} {ids : List Int} (h : Visits ir ir' ids) {i : Int}
    (hi : ¬ On ir i) : ¬ On ir' i := by
  by_cases hm : i ∈ ids
  · exact h.not_on hm
  · rwa [h.on_iff hm]

theorem Visits.trans {ir ir1 ir2 : List Ir} {a b : List Int} (h1 : Visits ir ir1 a)
    (h2 : Visits ir1 ir2 b) : Visits ir ir2 (a ++ b) := by
  -- a node of the second part is on after the first one, so it is new
  have hnew : ∀ i ∈ b, i ∉ a := fun i hb ha => h1.not_on ha (h2.on i hb)
  refine ⟨?_, ?_, ?_⟩
  · rw [List.nodup_append]
    exact ⟨h1.nodup, h2.nodup, fun i ha j hb hij => hnew j hb (hij ▸ ha)⟩
  · intro i hi
    rcases List.mem_append.1 hi with ha | hb
    · exact h1.on i ha
    · exact (h1.on_iff (hnew i hb)).1 (h2.on i hb)
  · intro j
    rw [h2.cell j, h1.cell j]
    by_cases ha : j ∈ a
    · have hb : j ∉ b := fun hb => hnew j hb ha
      simp [ha, hb]
    · simp [ha]

def bytes (text : String) : Nat := text.utf8ByteSize

@[simp] theorem bytes_append (a b : String) : bytes (a ++ b) = bytes a + bytes b :=
  String.utf8ByteSize_append

/-- The buffer of an event holds at most `n` bytes. -/
def Event.AtMost (n : Nat) : Event → Prop
  | .visit _ => True
  | .branch text => bytes text ≤ n
  | .cmd text => bytes text ≤ n

theorem Event.AtMost.mono {m n : Nat} {e : Event} (h : e.AtMost m) (hmn : m ≤ n) :
    e.AtMost n := by
  cases e with
  | visit id => trivial
  | branch text => exact Nat.le_trans h hmn
  | cmd text => exact Nat.le_trans h hmn

theorem visitsOf_append (a b : List Event) : visitsOf (a ++ b) = visitsOf a ++ visitsOf b :=
  List.filterMap_append

/-- A part of a run that visits the nodes `ids` and lets `branch` grow by at most `n` bytes,
at every moment. -/
structure Emits (s s' : Logged) (ids : List Int) (n : Nat) : Prop where
  visits : Visits s.ir s'.ir ids
  log : ∃ new, s'.log = s.log ++ new ∧ visitsOf new = ids ∧
    ∀ e ∈ new, e.AtMost (bytes s.branch + n)
  branch : bytes s'.branch ≤ bytes s.branch + n

theorem Emits.refl (s : Logged) : Emits s s [] 0 :=
  ⟨.refl s.ir, ⟨[], by simp, rfl, fun _ h => absurd h List.not_mem_nil⟩, Nat.le_refl _⟩

theorem Emits.mono {s s' : Logged} {ids : List Int} {m n : Nat} (h : Emits s s' ids m)
    (hmn : m ≤ n) : Emits s s' ids n := by
  obtain ⟨new, hlog, hids, hle⟩ := h.log
  refine ⟨h.visits, ⟨new, hlog, hids, fun e he => (hle e he).mono (by omega)⟩, ?_⟩
  have := h.branch
  omega

theorem Emits.trans {s s1 s2 : Logged} {a b : List Int} {m n : Nat} (h1 : Emits s s1 a m)
    (h2 : Emits s1 s2 b n) : Emits s s2 (a ++ b) (m + n) := by
  obtain ⟨new1, hlog1, hids1, hle1⟩ := h1.log
  obtain ⟨new2, hlog2, hids2, hle2⟩ := h2.log
  have hb1 := h1.branch
  have hb2 := h2.branch
  refine ⟨h1.visits.trans h2.visits, ⟨new1 ++ new2, ?_, ?_, ?_⟩, by omega⟩
  · rw [hlog2, hlog1, List.append_assoc]
  · rw [visitsOf_append, hids1, hids2]
  · intro e he
    rcases List.mem_append.1 he with he | he
    · exact (hle1 e he).mono (by omega)
    · exact (hle2 e he).mono (by omega)

theorem Emits.write {s s1 s2 : Logged} {ids : List Int} {m n : Nat} (h1 : Emits s s1 ids m)
    (h2 : Emits s1 s2 [] n) : Emits s s2 ids (m + n) := by
  have h := h1.trans h2
  rwa [List.append_nil] at h

/-! ## Single statements -/

theorem Logged.strcpy_emits {s : Logged} {text : String} {n : Nat}
    (h : bytes text ≤ bytes s.branch + n) : Emits s (s.strcpy text) [] n := by
  refine ⟨.refl s.ir, ⟨[.branch text], rfl, rfl, fun e he => ?_⟩, h⟩
  rw [List.mem_singleton.1 he]
  exact h

theorem Logged.strcat_emits (s : Logged) (text : String) :
    Emits s (s.strcat text) [] (bytes text) :=
  strcpy_emits (by rw [bytes_append])

theorem Logged.name_emits (s : Logged) (node : ArgNode) :
    Emits s (s.name node) [] (bytes node.arg) := by
  unfold Logged.name
  split
  · exact strcpy_emits (Nat.le_add_left _ _)
  · exact strcat_emits s node.arg

theorem Logged.operator_emits (s : Logged) (operator : String) :
    Emits s (s.operator operator) [] (bytes (operatorText operator)) := by
  unfold Logged.operator operatorText
  split
  · exact Emits.refl s
  · exact strcat_emits s operator

theorem Logged.value_emits (s : Logged) (node : ArgNode) (cell : Ir) :
    Emits s (s.value node cell) [] (bytes (valueText node cell)) := by
  unfold Logged.value
  split
  · exact strcat_emits s _
  · exact (Emits.refl s).mono (Nat.zero_le _)

theorem Logged.sibling_emits (s : Logged) (node : ArgNode) (lastSibling : Bool) :
    Emits s (s.sibling node lastSibling) [] (bytes (siblingText node)) := by
  unfold Logged.sibling
  split
  · exact (Emits.refl s).mono (Nat.zero_le _)
  · exact strcat_emits s _

theorem Logged.visit_emits {s : Logged} {id : Int} {cell : Ir} (hc : at? s.ir id = some cell)
    (hon : cell.enable = 1) :
    Emits s ⟨⟨put s.ir id { cell with enable := 2 }, s.branch⟩, s.log ++ [.visit id]⟩ [id] 0 := by
  refine ⟨⟨by simp, ?_, ?_⟩, ⟨[.visit id], rfl, rfl, ?_⟩, Nat.le_refl _⟩
  · intro i hi
    rw [List.mem_singleton.1 hi]
    exact enableOf_eq_some.2 ⟨cell, hc, hon⟩
  · intro j
    simp only [at?_put _ hc, List.mem_singleton]
    by_cases hj : j = id
    · simp [hj, hc]
    · simp [hj]
  · intro e he
    rw [List.mem_singleton.1 he]
    trivial

/-! ## One call -/

def nodeWidth (node : ArgNode) (cell : Ir) : Nat :=
  bytes node.arg + bytes (operatorText node.operatorChild) +
    bytes (operatorText node.operatorValue) + bytes (valueText node cell) +
    max 1 (bytes node.operatorSibling)

theorem bytes_siblingText (node : ArgNode) :
    bytes (siblingText node) ≤ max 1 (bytes node.operatorSibling) := by
  unfold siblingText
  split
  · exact Nat.le_max_left _ _
  · exact Nat.le_max_right _ _

/-- `w` bounds the widths of the nodes of a table with the values in `ir`. -/
def Covers (t : List ArgNode) (w : Int → Nat) (ir : List Ir) : Prop :=
  ∀ i node cell, at? t i = some node → at? ir i = some cell → nodeWidth node cell ≤ w i

theorem Covers.visits {w : Int → Nat} {ir ir' : List Ir} {ids : List Int} (hw : Covers t w ir)
    (h : Visits ir ir' ids) : Covers t w ir' := by
  intro i node cell' hn hc'
  rw [h.cell i] at hc'
  split at hc'
  · obtain ⟨cell, hc, rfl⟩ := Option.map_eq_some_iff.1 hc'
    exact hw i node cell hn hc
  · exact hw i node cell' hn hc'

def widthAt (t : List ArgNode) (ir : List Ir) (i : Int) : Nat :=
  ((at? t i).bind fun node => (at? ir i).map fun cell => nodeWidth node cell).getD 0

theorem covers_widthAt (t : List ArgNode) (ir : List Ir) : Covers t (widthAt t ir) ir := by
  intro i node cell hn hc
  simp [widthAt, hn, hc]

/-- The loop of `branch_generate` over the children of a node, with its events. -/
def branchChildrenLog (argArray : List ArgNode) (stale : Int → Int) (fuel : Nat) (last : Int)
    (children : List Int) (s : Logged) : Except Fault Logged :=
  children.foldlM (fun s c => do
    let r ← branchGenerateLog argArray stale fuel s c (c == last)
    return r.2) s

/-- A call finds its node off and does nothing, or visits it and goes on to the children, or
to the value of a leaf. -/
theorem branchGenerateLog_cases {fuel : Nat} {s : Logged} {id : Int} {lastSibling : Bool}
    {r : Bool × Logged} (h : branchGenerateLog t stale (fuel + 1) s id lastSibling = .ok r) :
    (¬ On s.ir id ∧ r = (false, s)) ∨
    ∃ cell node s1, at? s.ir id = some cell ∧ cell.enable = 1 ∧ at? t id = some node ∧
      s1 = Logged.name ⟨⟨put s.ir id { cell with enable := 2 }, s.branch⟩, s.log ++ [.visit id]⟩
        node ∧ r.1 = true ∧
      ((∃ last s2, branchChildrenLog t stale fuel last node.childId
          (s1.operator node.operatorChild) = .ok s2 ∧ r.2 = s2.sibling node lastSibling) ∨
        r.2 = ((s1.operator node.operatorValue).value node { cell with enable := 2 }).sibling node
          lastSibling) := by
  unfold branchGenerateLog at h
  obtain ⟨cell, hc, h⟩ := bind_eq_ok.1 h
  rw [rd_eq_ok] at hc
  by_cases hon : cell.enable = 1
  · rw [if_pos hon] at h
    obtain ⟨ir, hir, h⟩ := bind_eq_ok.1 h
    obtain ⟨cell', hc', rfl⟩ := setEnable_eq_ok.1 hir
    rw [hc] at hc'
    cases hc'
    obtain ⟨node, hn, h⟩ := bind_eq_ok.1 h
    rw [rd_eq_ok] at hn
    refine .inr ⟨cell, node, _, hc, hon, hn, rfl, ?_⟩
    by_cases hnil : node.childId = []
    · simp only [hnil, ne_eq, not_true_eq_false, ↓reduceIte, Logged.operator_toBranch,
        Logged.name_toBranch, Logged.value_toBranch, Logged.sibling_toBranch] at h
      have hput : at? (put s.ir id { cell with enable := 2 }) id =
          some { cell with enable := 2 } := by rw [at?_put _ hc, if_pos rfl]
      obtain ⟨cell1, hc1, h⟩ := bind_eq_ok.1 h
      rw [rd_eq_ok, hput] at hc1
      cases hc1
      obtain ⟨ir1, hir1, h⟩ := bind_eq_ok.1 h
      obtain ⟨cell2, hc2, rfl⟩ := setEnable_eq_ok.1 hir1
      rw [hput] at hc2
      cases hc2
      cases h
      refine ⟨rfl, .inr ?_⟩
      simp only [put_self hput]
      exact Logged.mk_toBranch (by simp)
    · simp only [hnil, ne_eq, not_false_eq_true, ↓reduceIte] at h
      obtain ⟨last, -, h⟩ := bind_eq_ok.1 h
      obtain ⟨s2, h2, h⟩ := bind_eq_ok.1 h
      cases h
      exact ⟨rfl, .inl ⟨last, s2, h2, rfl⟩⟩
  · rw [if_neg hon] at h
    cases h
    refine .inl ⟨fun hon' => ?_, rfl⟩
    obtain ⟨cell', hc', h1⟩ := enableOf_eq_some.1 hon'
    rw [hc] at hc'
    cases hc'
    exact hon h1

/-- **A call visits nodes that are on, each once, and no more text than their widths.** -/
theorem branchGenerateLog_emits {w : Int → Nat} : ∀ {fuel : Nat} {s : Logged} {id : Int}
    {lastSibling : Bool} {r : Bool × Logged},
    branchGenerateLog t stale fuel s id lastSibling = .ok r → Covers t w s.ir →
    ∃ ids, Emits s r.2 ids (ids.map w).sum ∧ (On s.ir id → r.1 = true ∧ id ∈ ids) ∧
      (¬ On s.ir id → r = (false, s))
  | 0, _, _, _, _, h, _ => by cases h
  | fuel + 1, s, id, lastSibling, r, h, hw => by
    rcases branchGenerateLog_cases h with
      ⟨hoff, rfl⟩ | ⟨cell, node, s1, hc, hon, hn, rfl, hr, hrest⟩
    · exact ⟨[], .refl s, fun hon => absurd hon hoff, fun _ => rfl⟩
    have hwid : nodeWidth node cell ≤ w id := hw id node cell hn hc
    have hsib := bytes_siblingText node
    unfold nodeWidth at hwid
    have hstart := (Logged.visit_emits hc hon).write (Logged.name_emits _ node)
    have hfound : On s.ir id := enableOf_eq_some.2 ⟨cell, hc, hon⟩
    rcases hrest with ⟨last, s2, hloop, hr2⟩ | hr2
    · have hhead := hstart.write (Logged.operator_emits _ node.operatorChild)
      obtain ⟨ids, hkids⟩ : ∃ ids, Emits _ s2 ids (ids.map w).sum := by
        refine foldlM_inv_done (fun _ s2 => ∃ ids, Emits _ s2 ids (ids.map w).sum) []
          ⟨[], .refl _⟩ ?_ hloop
        rintro done c rest s3 s4 - ⟨a, ha⟩ h4
        obtain ⟨r', hr', h4⟩ := bind_eq_ok.1 h4
        cases h4
        obtain ⟨b, hb, -⟩ := branchGenerateLog_emits hr'
          ((hw.visits hhead.visits).visits ha.visits)
        refine ⟨a ++ b, ?_⟩
        rw [List.map_append, List.sum_append]
        exact ha.trans hb
      have hall := (hhead.trans hkids).write (Logged.sibling_emits s2 node lastSibling)
      rw [← hr2] at hall
      refine ⟨id :: ids, hall.mono ?_, fun _ => ⟨hr, List.mem_cons_self⟩, fun h => absurd hfound h⟩
      rw [List.map_cons, List.sum_cons]
      omega
    · have hall := ((hstart.write (Logged.operator_emits _ node.operatorValue)).write
        (Logged.value_emits _ node { cell with enable := 2 })).write
        (Logged.sibling_emits _ node lastSibling)
      rw [← hr2] at hall
      refine ⟨[id], hall.mono ?_, fun _ => ⟨hr, List.mem_cons_self⟩, fun h => absurd hfound h⟩
      have hval : valueText node { cell with enable := 2 } = valueText node cell := rfl
      rw [hval, List.map_singleton, List.sum_singleton]
      omega

/-! ## The loop -/

/-- The state of the loop at `k`, when it started from `ir` with `n` bytes in its buffers. -/
structure EmittedOnce (w : Int → Nat) (ir : List Ir) (n k : Nat) (o : LoggedOutput) : Prop where
  visits : Visits ir o.ir (visitsOf o.log)
  behind : ∀ j, 0 ≤ j → j < (k : Int) → ¬ On o.ir j
  log : ∀ e ∈ o.log, e.AtMost (n + ((visitsOf o.log).map w).sum)
  buffers : bytes o.branch + bytes o.cmd ≤ n + ((visitsOf o.log).map w).sum

theorem EmittedOnce.behind_succ {w : Int → Nat} {ir ir' : List Ir} {n k : Nat}
    {o : LoggedOutput} (hI : EmittedOnce w ir n k o) (hoff : ∀ j, ¬ On o.ir j → ¬ On ir' j)
    (hk : ¬ On ir' k) : ∀ j, 0 ≤ j → j < ((k + 1 : Nat) : Int) → ¬ On ir' j := by
  intro j h0 hj
  by_cases hjk : j = k
  · rw [hjk]
    exact hk
  · exact hoff j (hI.behind j h0 (by omega))

theorem EmittedOnce.step_off {w : Int → Nat} {ir : List Ir} {n k : Nat} {o : LoggedOutput}
    (hI : EmittedOnce w ir n k o) (hk : ¬ On o.ir k) : EmittedOnce w ir n (k + 1) o :=
  ⟨hI.visits, hI.behind_succ (fun _ h => h) hk, hI.log, hI.buffers⟩

theorem EmittedOnce.step_on {w : Int → Nat} {ir : List Ir} {n k : Nat} {o : LoggedOutput}
    {s : Logged} {ids : List Int} (hI : EmittedOnce w ir n k o)
    (hE : Emits ⟨⟨o.ir, o.branch⟩, o.log⟩ s ids (ids.map w).sum) (hk : (k : Int) ∈ ids) :
    EmittedOnce w ir n (k + 1) ⟨⟨s.ir, "", o.cmd ++ s.branch⟩,
      s.log ++ [.cmd (o.cmd ++ s.branch), .branch ""]⟩ := by
  obtain ⟨new, hlog, hids, hle⟩ := hE.log
  have hvis : visitsOf (s.log ++ [.cmd (o.cmd ++ s.branch), .branch ""]) =
      visitsOf o.log ++ ids := by
    rw [hlog, visitsOf_append, visitsOf_append, hids]
    exact List.append_nil _
  have hsum : ((visitsOf o.log ++ ids).map w).sum =
      ((visitsOf o.log).map w).sum + (ids.map w).sum := by
    rw [List.map_append, List.sum_append]
  have hbuf := hI.buffers
  have hgrow : bytes s.branch ≤ bytes o.branch + (ids.map w).sum := hE.branch
  have hcmd : bytes (o.cmd ++ s.branch) ≤
      n + (((visitsOf o.log).map w).sum + (ids.map w).sum) := by
    rw [bytes_append]
    omega
  refine ⟨?_, hI.behind_succ (fun _ => hE.visits.off) (hE.visits.not_on hk), ?_, ?_⟩
  · simp only [hvis]
    exact hI.visits.trans hE.visits
  · simp only [hvis, hsum]
    intro e he
    rw [hlog] at he
    rcases List.mem_append.1 he with he | he
    · rcases List.mem_append.1 he with he | he
      · exact (hI.log e he).mono (by omega)
      · exact (hle e he).mono (by simp only; omega)
    · rcases List.mem_cons.1 he with rfl | he
      · exact hcmd
      · rw [List.mem_singleton.1 he]
        exact Nat.zero_le _
  · simp only [hvis, hsum]
    have hempty : bytes "" = 0 := rfl
    omega

theorem EmittedOnce.step {w : Int → Nat} {ir : List Ir} {n k : Nat} {o o' : LoggedOutput}
    (hw : Covers t w ir) (hI : EmittedOnce w ir n k o) (h : emitStepLog t stale k o = .ok o') :
    EmittedOnce w ir n (k + 1) o' := by
  obtain ⟨r, hr, h⟩ := bind_eq_ok.1 h
  obtain ⟨ids, hE, hon, hoff⟩ := branchGenerateLog_emits hr (hw.visits hI.visits)
  by_cases hk : On o.ir k
  · obtain ⟨hr1, hmem⟩ := hon hk
    rw [if_pos hr1] at h
    cases h
    exact hI.step_on hE hmem
  · rw [hoff hk] at h
    cases h
    exact hI.step_off hk

/-- The loop with its events ends on any child graph, and all that is on is visited. -/
theorem emitLoopLog_once (stale : Int → Int) {w : Int → Nat} {ir : List Ir} (hw : Covers t w ir)
    (ht : ∀ node ∈ t, ∀ c ∈ node.childId, InTable t c) (hl : ir.length = t.length)
    (branch : String) :
    ∃ o, emitLoopLog t stale t.length ir branch = .ok o ∧
      emitLoop t stale t.length ir branch = .ok o.toOutput ∧
      EmittedOnce w ir (1 + bytes branch) t.length o ∧ ∀ i, i ∈ visitsOf o.log ↔ On ir i := by
  have herase := emitLoopLog_erase t stale t.length ir branch
  obtain ⟨out, hout, -⟩ : ∃ o, emitLoop t stale t.length ir branch = .ok o ∧ _ :=
    emitLoop_total ht hl branch
  cases ho : emitLoopLog t stale t.length ir branch with
  | error e =>
    rw [ho, hout] at herase
    cases herase
  | ok o =>
    rw [ho] at herase
    have hstart : EmittedOnce w ir (1 + bytes branch) 0 ⟨⟨ir, branch, " "⟩, [.cmd " "]⟩ := by
      have hblank : bytes " " = 1 := by decide
      refine ⟨.refl ir, fun j h0 hj => by omega, fun e he => ?_, ?_⟩
      · rw [List.mem_singleton.1 he]
        show bytes " " ≤ _
        omega
      · show bytes branch + bytes " " ≤ _
        omega
    have hI : EmittedOnce w ir (1 + bytes branch) t.length o :=
      forUpto_inv (EmittedOnce w ir (1 + bytes branch)) hstart
        (fun _ _ _ _ hI hstep => hI.step hw hstep) ho
    refine ⟨o, rfl, herase.symm, hI, fun i => ⟨hI.visits.on i, fun hon => ?_⟩⟩
    by_contra hi
    obtain ⟨h0, h1⟩ := range_of_enableOf hon
    exact hI.behind i h0 (by omega) ((hI.visits.on_iff hi).2 hon)

end

/-- **Every enabled node is handled once.** On any child graph, shared, repeated or cyclic, and
whatever the marks are, the emission loop ends. The calls that find their node on are at the
nodes that were on before the loop, one call at each, and these nodes end with `enable` 2 while
every other `enable` is as before. -/
theorem emitLoop_visits_each_once (t : List ArgNode)
    (ht : ∀ node ∈ t, ∀ c ∈ node.childId, InTable t c) (ir : List Ir)
    (hl : ir.length = t.length) (stale : Int → Int) (branch : String) :
    ∃ o, emitLoopLog t stale t.length ir branch = .ok o ∧
      emitLoop t stale t.length ir branch = .ok o.toOutput ∧
      (visitsOf o.log).Nodup ∧ (∀ i, i ∈ visitsOf o.log ↔ On ir i) ∧
      ∀ i, enableOf o.ir i = if On ir i then some 2 else enableOf ir i := by
  obtain ⟨o, ho, hout, hI, hmem⟩ :=
    emitLoopLog_once stale (covers_widthAt t ir) ht hl branch
  refine ⟨o, ho, hout, hI.visits.nodup, hmem, fun i => ?_⟩
  by_cases hon : On ir i
  · obtain ⟨cell, hc, -⟩ := enableOf_eq_some.1 hon
    rw [if_pos hon, enableOf, hI.visits.cell i, if_pos ((hmem i).2 hon), hc]
    rfl
  · rw [if_neg hon, enableOf, hI.visits.cell i, if_neg fun hi => hon ((hmem i).1 hi)]
    rfl

/-- Three nodes whose child lists repeat ids, share one and form cycles. -/
def knotTable : List ArgNode :=
  [{ plainNode "-a" with childId := [1, 1, 0, 2] },
   { plainNode "x" with childId := [0, 2], dependencyId := [0] },
   { plainNode "y" with dependencyId := [0, 1] }]

theorem knot_visits_each_once :
    ∃ o, emitLoopLog knotTable id 3 [⟨1, 0, ""⟩, ⟨1, 0, ""⟩, ⟨2, 0, ""⟩] "" = .ok o ∧
      emitLoop knotTable id 3 [⟨1, 0, ""⟩, ⟨1, 0, ""⟩, ⟨2, 0, ""⟩] "" = .ok o.toOutput ∧
      (visitsOf o.log).Nodup ∧
      (∀ i, i ∈ visitsOf o.log ↔ On [⟨1, 0, ""⟩, ⟨1, 0, ""⟩, ⟨2, 0, ""⟩] i) ∧
      ∀ i, enableOf o.ir i = if On [⟨1, 0, ""⟩, ⟨1, 0, ""⟩, ⟨2, 0, ""⟩] i then some 2
        else enableOf [⟨1, 0, ""⟩, ⟨1, 0, ""⟩, ⟨2, 0, ""⟩] i :=
  emitLoop_visits_each_once knotTable (by decide) [⟨1, 0, ""⟩, ⟨1, 0, ""⟩, ⟨2, 0, ""⟩] rfl id ""

end ConFuzz
