import OctoLift.Listing.Line

/-!
# Reading lines back

A line of source is read as Octo reads it: what follows a hash is a remark, and what stands before
it falls into words at the blanks. Every line of a listing is read back as the words that it was
made of, so that the words tell what the line says.
-/

namespace OctoLift

def isBlank (c : Char) : Bool :=
  c == ' ' || c == '\t' || c == '\n'

/-- The parts of a text between blanks. -/
def wordsOf (text : List Char) : List (List Char) :=
  (text.splitOnP isBlank).filter fun w => !w.isEmpty

/-- The words of a line of source that stand before a remark. -/
def sourceWords (line : String) : List String :=
  (wordsOf (line.toList.takeWhile (· != '#'))).map String.ofList

/-- What a remark of a line of source says, behind the hash and a blank. -/
def remarkOf (line : String) : String :=
  String.ofList ((line.toList.dropWhile (· != '#')).drop 2)

/-- The lines of a text: what stands before, between and after the line breaks. -/
def linesOf (text : String) : List String :=
  (text.toList.splitOnP (· == '\n')).map String.ofList

def isWord (w : String) : Bool :=
  !w.toList.isEmpty && w.toList.all fun c => !isBlank c && c != '#'

section Words

theorem wordsOf_blank_cons {c : Char} (hc : isBlank c = true) (text : List Char) :
    wordsOf (c :: text) = wordsOf text := by
  rw [wordsOf, List.splitOnP_cons_eq_if_modifyHead, if_pos hc]
  rfl

theorem wordsOf_blanks_append {blanks : List Char} (h : ∀ c ∈ blanks, isBlank c = true)
    (text : List Char) : wordsOf (blanks ++ text) = wordsOf text := by
  induction blanks with
  | nil => rfl
  | cons c rest ih =>
    rw [List.cons_append, wordsOf_blank_cons (h c (by simp))]
    exact ih fun d hd => h d (by simp [hd])

theorem isWord_iff {w : String} :
    isWord w = true ↔ w.toList ≠ [] ∧ ∀ c ∈ w.toList, isBlank c = false ∧ (c != '#') = true := by
  simp [isWord]

theorem wordsOf_word {w : String} (h : isWord w = true) : wordsOf w.toList = [w.toList] := by
  obtain ⟨hne, hplain⟩ := isWord_iff.1 h
  rw [wordsOf, List.splitOnP_eq_singleton fun c hc => (hplain c hc).1]
  simp [hne]

theorem wordsOf_word_append {w : String} (h : isWord w = true) {c : Char} (hc : isBlank c = true)
    (text : List Char) : wordsOf (w.toList ++ c :: text) = w.toList :: wordsOf text := by
  obtain ⟨hne, hplain⟩ := isWord_iff.1 h
  rw [wordsOf, List.splitOnP_append_cons_of_forall_mem (fun d hd => (hplain d hd).1) c hc]
  simp [hne, wordsOf]

theorem wordsOf_intercalate {ws : List String} (h : ∀ w ∈ ws, isWord w = true)
    {trail : List Char} (htrail : trail = [] ∨ trail = [' ']) :
    wordsOf ((" ".intercalate ws).toList ++ trail) = ws.map String.toList := by
  induction ws with
  | nil =>
    rcases htrail with rfl | rfl
    · rfl
    · rfl
  | cons w rest ih =>
    have hw := h w (by simp)
    cases rest with
    | nil =>
      rw [String.intercalate_singleton]
      rcases htrail with rfl | rfl
      · rw [List.append_nil, wordsOf_word hw]
        rfl
      · rw [wordsOf_word_append hw rfl]
        rfl
    | cons v rest =>
      have htext : (" ".intercalate (w :: v :: rest)).toList ++ trail =
          w.toList ++ ' ' :: ((" ".intercalate (v :: rest)).toList ++ trail) := by
        rw [String.intercalate_cons_cons]
        simp
      rw [htext, wordsOf_word_append hw rfl, ih fun u hu => h u (by simp [hu])]
      rfl

private theorem ne_hash_of_blank {c : Char} (h : isBlank c = true) : (c != '#') = true := by
  rw [bne_iff_ne]
  rintro rfl
  cases h

theorem mem_intercalate {ws : List String} {c : Char} (h : c ∈ (" ".intercalate ws).toList) :
    c = ' ' ∨ ∃ w ∈ ws, c ∈ w.toList := by
  induction ws with
  | nil => cases h
  | cons w rest ih =>
    cases rest with
    | nil => exact Or.inr ⟨w, by simp, by simpa using h⟩
    | cons v rest =>
      rw [String.intercalate_cons_cons, String.toList_append, String.toList_append,
        List.mem_append, List.mem_append] at h
      rcases h with (hw | hspace) | hrest
      · exact Or.inr ⟨w, by simp, hw⟩
      · exact Or.inl (by simpa using hspace)
      · rcases ih hrest with hspace | ⟨u, hu, hc⟩
        · exact Or.inl hspace
        · exact Or.inr ⟨u, by simp [hu], hc⟩

theorem hash_notMem_intercalate {ws : List String} (h : ∀ w ∈ ws, isWord w = true) :
    '#' ∉ (" ".intercalate ws).toList := by
  intro hc
  rcases mem_intercalate hc with hspace | ⟨w, hw, hcw⟩
  · cases hspace
  · exact absurd ((isWord_iff.1 (h w hw)).2 '#' hcw).2 (by decide)

/-- What was written behind a hash is read back as the remark. -/
theorem remarkOf_append {line : String} (h : '#' ∉ line.toList) (text : String) :
    remarkOf (line ++ " # " ++ text) = text := by
  have hplain : ∀ c ∈ line.toList ++ [' '], (c != '#') = true := by
    intro c hc
    rw [bne_iff_ne]
    rintro rfl
    exact h (by simpa using hc)
  have htext : (line ++ " # " ++ text).toList =
      (line.toList ++ [' ']) ++ '#' :: ' ' :: text.toList := by simp
  rw [remarkOf, htext, List.dropWhile_append_of_pos hplain, List.dropWhile_cons_of_neg (by decide)]
  simp

/-- A line that was made of words, behind blanks and perhaps before a remark, is read back as these
words. -/
theorem sourceWords_eq {indent remark : String} {ws : List String}
    (hindent : ∀ c ∈ indent.toList, isBlank c = true) (h : ∀ w ∈ ws, isWord w = true)
    (hremark : remark = "" ∨ ∃ text, remark = " # " ++ text) :
    sourceWords (indent ++ " ".intercalate ws ++ remark) = ws := by
  have htrail : ∃ trail, remark.toList.takeWhile (· != '#') = trail ∧
      (trail = [] ∨ trail = [' ']) := by
    rcases hremark with rfl | ⟨text, rfl⟩
    · exact ⟨[], rfl, Or.inl rfl⟩
    · exact ⟨[' '], by simp, Or.inr rfl⟩
  obtain ⟨trail, htake, htrail⟩ := htrail
  have hplain : ∀ c ∈ (" ".intercalate ws).toList, (c != '#') = true := by
    intro c hc
    rcases mem_intercalate hc with rfl | ⟨w, hw, hcw⟩
    · rfl
    · exact ((isWord_iff.1 (h w hw)).2 c hcw).2
  have hline : (indent ++ " ".intercalate ws ++ remark).toList.takeWhile (· != '#') =
      indent.toList ++ ((" ".intercalate ws).toList ++ trail) := by
    rw [String.toList_append, String.toList_append, List.append_assoc,
      List.takeWhile_append_of_pos fun c hc => ne_hash_of_blank (hindent c hc),
      List.takeWhile_append_of_pos hplain, htake]
  rw [sourceWords, hline, wordsOf_blanks_append hindent, wordsOf_intercalate h htrail]
  simp

end Words

section Lines

/-- Whether a text has no line breaks. -/
def IsLine (text : String) : Prop :=
  '\n' ∉ text.toList

instance : DecidablePred IsLine := fun text =>
  inferInstanceAs (Decidable ('\n' ∉ text.toList))

theorem IsLine.append {u v : String} (hu : IsLine u) (hv : IsLine v) : IsLine (u ++ v) := by
  rw [IsLine, String.toList_append, List.mem_append]
  exact fun h => h.elim hu hv

theorem linesOf_empty : linesOf "" = [""] := rfl

theorem linesOf_append {line : String} (h : IsLine line) (text : String) :
    linesOf (line ++ "\n" ++ text) = line :: linesOf text := by
  have hplain : ∀ c ∈ line.toList, (c == '\n') = false := by
    intro c hc
    rw [beq_eq_false_iff_ne]
    rintro rfl
    exact h hc
  have htext : (line ++ "\n" ++ text).toList = line.toList ++ '\n' :: text.toList := by simp
  rw [linesOf, htext, List.splitOnP_append_cons_of_forall_mem hplain '\n' rfl]
  simp [linesOf]

private theorem foldl_lines {α : Type} (f : α → String) (xs : List α) (text : String) :
    xs.foldl (fun text x => text ++ f x ++ "\n") text =
      text ++ xs.foldr (fun x rest => f x ++ "\n" ++ rest) "" := by
  induction xs generalizing text with
  | nil => simp
  | cons x rest ih => rw [List.foldl_cons, List.foldr_cons, ih]; simp only [String.append_assoc]

/-- A text that was put together line by line falls into these lines. -/
theorem linesOf_foldl {α : Type} {f : α → String} {xs : List α} (h : ∀ x ∈ xs, IsLine (f x)) :
    linesOf (xs.foldl (fun text x => text ++ f x ++ "\n") "") = xs.map f ++ [""] := by
  rw [foldl_lines, String.empty_append]
  induction xs with
  | nil => exact linesOf_empty
  | cons x rest ih =>
    rw [List.foldr_cons, linesOf_append (h x (by simp)), ih fun y hy => h y (by simp [hy])]
    rfl

theorem isLine_of_isWord {w : String} (h : isWord w = true) : IsLine w :=
  fun hc => absurd ((isWord_iff.1 h).2 '\n' hc).1 (by decide)

theorem isLine_intercalate {ws : List String} (h : ∀ w ∈ ws, isWord w = true) :
    IsLine (" ".intercalate ws) := by
  intro hc
  rcases mem_intercalate hc with hspace | ⟨w, hw, hcw⟩
  · cases hspace
  · exact isLine_of_isWord (h w hw) hcw

end Lines

section Atoms

theorem isWord_append {u v : String} (hu : isWord u = true) (hv : isWord v = true) :
    isWord (u ++ v) = true := by
  obtain ⟨hne, hu⟩ := isWord_iff.1 hu
  obtain ⟨_, hv⟩ := isWord_iff.1 hv
  rw [isWord_iff, String.toList_append]
  refine ⟨by simp [hne], fun c hc => ?_⟩
  rcases List.mem_append.1 hc with hc | hc
  · exact hu c hc
  · exact hv c hc

theorem exists_digitChar_of_mem_toDigits {n : Nat} {c : Char} (h : c ∈ Nat.toDigits 16 n) :
    ∃ k < 16, c = Nat.digitChar k := by
  induction n using Nat.strongRecOn with
  | ind n ih =>
    by_cases hn : n < 16
    · rw [Nat.toDigits_of_lt_base hn, List.mem_singleton] at h
      exact ⟨n, hn, h⟩
    · rw [Nat.toDigits_of_base_le (by decide) (by omega), List.mem_append] at h
      rcases h with h | h
      · exact ih (n / 16) (by omega) h
      · exact ⟨n % 16, by omega, List.mem_singleton.1 h⟩

theorem isWord_hexUpper (width n : Nat) : isWord (Numeral.hexUpper width n) = true := by
  have hplain : ∀ k < 16, isBlank (Nat.digitChar k).toUpper = false ∧
      ((Nat.digitChar k).toUpper != '#') = true := by decide
  have hdigit : ∀ c ∈ Numeral.hexDigits width n, ∃ k < 16, c = Nat.digitChar k := by
    intro c hc
    rcases List.mem_append.1 hc with hc | hc
    · exact ⟨0, by decide, List.eq_of_mem_replicate hc⟩
    · exact exists_digitChar_of_mem_toDigits hc
  rw [isWord_iff, Numeral.toList_hexUpper]
  refine ⟨List.cons_ne_nil _ _, fun c hc => ?_⟩
  simp only [List.mem_cons, List.mem_map] at hc
  rcases hc with rfl | rfl | ⟨d, hd, rfl⟩
  · decide
  · decide
  · obtain ⟨k, hk, rfl⟩ := hdigit d hd
    exact hplain k hk

theorem toList_decimal (n : Nat) : (Numeral.decimal n).toList = Nat.toDigits 10 n := by
  rw [Numeral.decimal, Nat.repr_eq_ofList_toDigits, String.toList_ofList]

theorem isDigit_of_mem_decimal {n : Nat} {c : Char} (h : c ∈ (Numeral.decimal n).toList) :
    c.isDigit = true :=
  Nat.isDigit_of_mem_toDigits (b := 10) (by decide) (by decide) (toList_decimal n ▸ h)

theorem isWord_decimal (n : Nat) : isWord (Numeral.decimal n) = true := by
  rw [isWord_iff]
  refine ⟨?_, fun c hc => ?_⟩
  · rw [toList_decimal]
    exact Nat.toDigits_ne_nil
  · have hdigit := isDigit_of_mem_decimal hc
    have hne (d : Char) (hd : d.isDigit = false) : c ≠ d := by
      rintro rfl
      rw [hd] at hdigit
      cases hdigit
    simp [isBlank, hne ' ' rfl, hne '\t' rfl, hne '\n' rfl, hne '#' rfl]

end Atoms
end OctoLift
