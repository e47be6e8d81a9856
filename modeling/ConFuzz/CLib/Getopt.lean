import Mathlib.Data.List.Basic

/-!
# Command lines

What happens to a text on its way to the `main` of another program:

* `fields`: the shell splits an unquoted expansion at blanks;
* `getopt`: the options of the words and their arguments, in order, and the
  words that are no options. A character that is not in `optstring`, and an
  option without the argument it needs, are the option `?`.

A list of words that is read as complete options whatever follows it
(`Parses`) can be put together from smaller ones.
-/

namespace ConFuzz.CLib

abbrev Word : Type := List Char

/-- A property of the characters of a text is decided along the text, also where one of all
characters is decidable. -/
instance (priority := 2000) decidableForallMemText (p : Char → Prop) [DecidablePred p]
    (text : List Char) : Decidable (∀ c ∈ text, p c) :=
  List.decidableBAll p text

/-! ## Field splitting -/

def isBlank (c : Char) : Bool := c == ' ' || c == '\t' || c == '\n'

/-- The fields of an unquoted expansion. -/
def fields (text : List Char) : List Word := (text.splitOnP isBlank).filter (· ≠ [])

/-- A text without blanks that is not empty. -/
structure IsWord (w : Word) : Prop where
  ne_nil : w ≠ []
  clean : ∀ c ∈ w, isBlank c = false

theorem IsWord.append_left {u v : Word} (hu : IsWord u) (hv : ∀ c ∈ v, isBlank c = false) :
    IsWord (u ++ v) := by
  refine ⟨List.append_ne_nil_of_left_ne_nil hu.ne_nil v, fun c hc => ?_⟩
  rcases List.mem_append.1 hc with h | h
  · exact hu.clean c h
  · exact hv c h

theorem fields_append_blank {a b : List Char} {c : Char} (hc : isBlank c = true) :
    fields (a ++ c :: b) = fields a ++ fields b := by
  unfold fields
  rw [List.splitOnP_append_cons a b hc, List.filter_append]

theorem fields_of_word {w : Word} (h : IsWord w) : fields w = [w] := by
  unfold fields
  rw [List.splitOnP_eq_singleton h.clean, List.filter_cons_of_pos (by simpa using h.ne_nil),
    List.filter_nil]

@[simp] theorem fields_nil : fields [] = [] := rfl

theorem fields_blanks : ∀ {a : List Char} (b : List Char), (∀ c ∈ a, isBlank c = true) →
    fields (a ++ b) = fields b
  | [], _, _ => rfl
  | c :: a, b, h => by
    have ih := fields_blanks b fun c' hc' => h c' (List.mem_cons_of_mem c hc')
    have hsplit : fields ([] ++ c :: (a ++ b)) = fields [] ++ fields (a ++ b) :=
      fields_append_blank (h c List.mem_cons_self)
    rw [← ih]
    exact hsplit

theorem fields_append_blanks {a b : List Char} (h : ∀ c ∈ b, isBlank c = true) :
    fields (a ++ b) = fields a := by
  cases b with
  | nil => rw [List.append_nil]
  | cons c b =>
    have hrest := fields_blanks [] fun c' hc' => h c' (List.mem_cons_of_mem c hc')
    rw [fields_append_blank (h c List.mem_cons_self), ← List.append_nil b, hrest, fields_nil,
      List.append_nil]

/-- Texts that end with a blank are split one by one. -/
theorem fields_flatMap {α : Type} {text : α → List Char} {words : α → List Word} :
    ∀ {l : List α}, (∀ a ∈ l, ∃ body c, text a = body ++ [c] ∧ isBlank c = true ∧
      fields body = words a) → fields (l.flatMap text) = l.flatMap words
  | [], _ => rfl
  | a :: l, h => by
    obtain ⟨body, c, ha, hc, hw⟩ := h a List.mem_cons_self
    rw [List.flatMap_cons, List.flatMap_cons, ha, List.append_assoc, List.singleton_append,
      fields_append_blank hc, hw, fields_flatMap fun b hb => h b (List.mem_cons_of_mem a hb)]

/-! ## `getopt` -/

/-- A result of `getopt`, with `optarg`. -/
structure Opt where
  opt : Char
  optarg : Option Word
  deriving DecidableEq, Repr

/-- Whether `optstring` has a character, and with an argument. -/
def takesArg (optstring : List Char) (c : Char) : Option Bool :=
  if c = ':' ∨ c = ';' then none
  else
    match optstring.dropWhile (· ≠ c) with
    | [] => none
    | _ :: ':' :: _ => some true
    | _ :: _ => some false

/-- The options of one word after its `-`, and the one that waits for its argument. -/
def cluster (optstring : List Char) : List Char → List Opt × Option Char
  | [] => ([], none)
  | c :: cs =>
    match takesArg optstring c with
    | none => (⟨'?', none⟩ :: (cluster optstring cs).1, (cluster optstring cs).2)
    | some false => (⟨c, none⟩ :: (cluster optstring cs).1, (cluster optstring cs).2)
    | some true => if cs = [] then ([], some c) else ([⟨c, some cs⟩], none)

/-- `getopt` over the words of a command line: the options, and the operands, which it moves
to the end. The first argument is the option that waits for its argument. -/
def getopt (optstring : List Char) : Option Char → List Word → List Opt × List Word
  | none, [] => ([], [])
  | some _, [] => ([⟨'?', none⟩], [])
  | some c, w :: ws =>
    let r := getopt optstring none ws
    (⟨c, some w⟩ :: r.1, r.2)
  | none, w :: ws =>
    if w = ['-', '-'] then ([], ws)
    else
      match w with
      | '-' :: c :: cs =>
        let o := cluster optstring (c :: cs)
        let r := getopt optstring o.2 ws
        (o.1 ++ r.1, r.2)
      | w =>
        let r := getopt optstring none ws
        (r.1, w :: r.2)

section

variable {optstring : List Char} {ws ws' : List Word} {opts opts' : List Opt} {c : Char}

/-- The words are read as the options, whatever follows them. -/
def Parses (optstring : List Char) (ws : List Word) (opts : List Opt) : Prop :=
  ∀ rest, getopt optstring none (ws ++ rest) =
    (opts ++ (getopt optstring none rest).1, (getopt optstring none rest).2)

theorem Parses.nil : Parses optstring [] [] := fun _ => rfl

theorem Parses.append (h : Parses optstring ws opts) (h' : Parses optstring ws' opts') :
    Parses optstring (ws ++ ws') (opts ++ opts') := by
  intro rest
  rw [List.append_assoc, h, h', List.append_assoc]

theorem Parses.flatMap {α : Type} {words : α → List Word} {options : α → List Opt} :
    ∀ {l : List α}, (∀ a ∈ l, Parses optstring (words a) (options a)) →
      Parses optstring (l.flatMap words) (l.flatMap options)
  | [], _ => .nil
  | a :: l, h => by
    rw [List.flatMap_cons, List.flatMap_cons]
    exact (h a List.mem_cons_self).append
      (Parses.flatMap fun b hb => h b (List.mem_cons_of_mem a hb))

theorem cluster_flags : ∀ {cs : List Char}, (∀ c ∈ cs, takesArg optstring c = some false) →
    cluster optstring cs = (cs.map fun c => ⟨c, none⟩, none)
  | [], _ => rfl
  | c :: cs, h => by
    have ih := cluster_flags fun c' hc' => h c' (List.mem_cons_of_mem c hc')
    rw [cluster, h c List.mem_cons_self, ih]
    rfl

theorem Parses.flags {cs : List Char} (hne : c ≠ '-')
    (h : ∀ c' ∈ c :: cs, takesArg optstring c' = some false) :
    Parses optstring ['-' :: c :: cs] ((c :: cs).map fun c => ⟨c, none⟩) := by
  intro rest
  have hdd : ('-' :: c :: cs) ≠ ['-', '-'] := by
    intro he
    cases he
    exact hne rfl
  rw [List.singleton_append, getopt, if_neg hdd]
  simp only [cluster_flags h]

/-- An option with its argument in the next word. -/
theorem Parses.separate {w : Word} (hne : c ≠ '-') (h : takesArg optstring c = some true) :
    Parses optstring [['-', c], w] [⟨c, some w⟩] := by
  intro rest
  have hdd : ['-', c] ≠ ['-', '-'] := by
    intro he
    cases he
    exact hne rfl
  have hcl : cluster optstring [c] = ([], some c) := by rw [cluster, h, if_pos rfl]
  rw [List.cons_append, List.singleton_append, getopt, if_neg hdd]
  simp only [hcl, getopt]
  rfl

/-- An option with its argument in the same word. -/
theorem Parses.attached {w : Word} (hne : c ≠ '-') (hw : w ≠ [])
    (h : takesArg optstring c = some true) :
    Parses optstring ['-' :: c :: w] [⟨c, some w⟩] := by
  intro rest
  have hdd : ('-' :: c :: w) ≠ ['-', '-'] := by
    intro he
    cases he
    exact hw rfl
  have hcl : cluster optstring (c :: w) = ([⟨c, some w⟩], none) := by
    rw [cluster, h, if_neg hw]
  rw [List.singleton_append, getopt, if_neg hdd]
  simp only [hcl]

theorem getopt_operand {w : Word} (hw : w.head? ≠ some '-') :
    getopt optstring none [w] = ([], [w]) := by
  have hdd : w ≠ ['-', '-'] := by
    rintro rfl
    exact hw rfl
  rw [getopt, if_neg hdd]
  · rfl
  · rintro c cs rfl
    exact hw rfl

end

end ConFuzz.CLib
