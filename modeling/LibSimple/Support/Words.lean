import Mathlib.Data.List.Basic
import Mathlib.Data.List.TakeWhile

/-!
# Words

The words of a text are the nonempty pieces between its separators.  Separators
at the ends and runs of them between two words make no difference, so words are
what a tokenizer finds; where two texts meet without a separator between them, a
word of the one runs into a word of the other.
-/

namespace Words

variable {α : Type*} {p : α → Bool}

/-- The nonempty pieces of the text between the separators `p`. -/
def words (p : α → Bool) (text : List α) : List (List α) :=
  (text.splitOnP p).filter fun w => !w.isEmpty

@[simp] theorem words_nil : words p [] = [] := rfl

/-- A separator keeps the words on its sides apart. -/
theorem words_append_cons {c : α} (hc : p c = true) (xs ys : List α) :
    words p (xs ++ c :: ys) = words p xs ++ words p ys := by
  rw [words, List.splitOnP_append_cons xs ys hc, List.filter_append]
  rfl

theorem words_cons_sep {c : α} (hc : p c = true) (xs : List α) :
    words p (c :: xs) = words p xs := by
  simpa using words_append_cons hc [] xs

theorem words_of_word {w : List α} (hne : w ≠ []) (hw : ∀ c ∈ w, p c = false) :
    words p w = [w] := by
  rw [words, List.splitOnP_eq_singleton hw, List.filter_cons_of_pos (by simpa using hne),
    List.filter_nil]

theorem words_of_seps {seps : List α} (h : ∀ c ∈ seps, p c = true) (xs : List α) :
    words p (seps ++ xs) = words p xs := by
  induction seps with
  | nil => rfl
  | cons c seps ih =>
      rw [List.forall_mem_cons] at h
      rw [List.cons_append, words_cons_sep h.1, ih h.2]

theorem words_append_seps {seps : List α} (h : ∀ c ∈ seps, p c = true) (xs : List α) :
    words p (xs ++ seps) = words p xs := by
  cases seps with
  | nil => rw [List.append_nil]
  | cons c seps =>
      rw [List.forall_mem_cons] at h
      have hnone : words p seps = [] := by simpa using words_of_seps h.2 []
      rw [words_append_cons h.1, hnone, List.append_nil]

/-- A word, a separator, and the rest of the text. -/
theorem words_word_append {w : List α} (hne : w ≠ []) (hw : ∀ c ∈ w, p c = false) {c : α}
    (hc : p c = true) (xs : List α) : words p (w ++ c :: xs) = w :: words p xs := by
  rw [words_append_cons hc, words_of_word hne hw, List.singleton_append]

/-- The first word of a text, by scanning it. -/
theorem words_eq_cons {text rest : List α} {c : α} (h : text.dropWhile p = c :: rest) :
    words p text = (c :: rest).takeWhile (!p ·) :: words p ((c :: rest).dropWhile (!p ·)) := by
  have hsplit := List.takeWhile_append_dropWhile (p := p) (l := text)
  have hc : p c = false := by
    have hne : text.dropWhile p ≠ [] := by simp [h]
    simpa [h] using List.head_dropWhile_not p hne
  have hword : (c :: rest).takeWhile (!p ·) ≠ [] := by simp [hc]
  have hplain : ∀ d ∈ (c :: rest).takeWhile (!p ·), p d = false :=
    fun d hd => by simpa using List.mem_takeWhile_imp hd
  rw [← hsplit, words_of_seps (fun d hd => List.mem_takeWhile_imp hd), h]
  conv_lhs => rw [← List.takeWhile_append_dropWhile (p := (!p ·)) (l := c :: rest)]
  cases hrest : (c :: rest).dropWhile (!p ·) with
  | nil => rw [List.append_nil, words_of_word hword hplain, words_nil]
  | cons d post =>
      have hd : p d = true := by
        have hne : (c :: rest).dropWhile (!p ·) ≠ [] := by simp [hrest]
        simpa [hrest] using List.head_dropWhile_not (!p ·) hne
      rw [words_word_append hword hplain hd, words_cons_sep hd]

/-! ## Texts between separators -/

theorem mem_of_mem_intercalate {sep x : α} {texts : List (List α)}
    (h : x ∈ [sep].intercalate texts) : x = sep ∨ ∃ t ∈ texts, x ∈ t := by
  induction texts with
  | nil => simp at h
  | cons t texts ih =>
      by_cases hnil : texts = []
      · subst hnil
        rw [List.intercalate_singleton] at h
        exact Or.inr ⟨t, List.mem_cons_self, h⟩
      · rw [List.intercalate_cons_of_ne_nil hnil] at h
        simp only [List.mem_append, List.mem_singleton, or_assoc] at h
        rcases h with h | h | h
        · exact Or.inr ⟨t, List.mem_cons_self, h⟩
        · exact Or.inl h
        · exact (ih h).imp id fun ⟨u, hu, hx⟩ => ⟨u, List.mem_cons_of_mem t hu, hx⟩

theorem length_le_of_mem_intercalate {sep : α} {texts : List (List α)} {t : List α}
    (h : t ∈ texts) : t.length ≤ ([sep].intercalate texts).length := by
  induction texts with
  | nil => simp at h
  | cons u texts ih =>
      by_cases hnil : texts = []
      · subst hnil
        rw [List.mem_singleton.mp h, List.intercalate_singleton]
      · rw [List.intercalate_cons_of_ne_nil hnil, List.length_append, List.length_append]
        rcases List.mem_cons.mp h with rfl | h
        · omega
        · have := ih h
          omega

/-- Of texts between separators the nonempty ones are the words. -/
theorem words_intercalate {sep : α} (hsep : p sep = true) {texts : List (List α)}
    (h : ∀ t ∈ texts, ∀ c ∈ t, p c = false) :
    words p ([sep].intercalate texts) = texts.filter fun t => !t.isEmpty := by
  have hone : ∀ t : List α, (∀ c ∈ t, p c = false) →
      words p t = [t].filter fun t => !t.isEmpty := by
    intro t ht
    cases t with
    | nil => rfl
    | cons c t => exact words_of_word (List.cons_ne_nil c t) ht
  induction texts with
  | nil => rfl
  | cons t texts ih =>
      rw [List.forall_mem_cons] at h
      by_cases hnil : texts = []
      · subst hnil
        rw [List.intercalate_singleton, hone t h.1]
      · rw [List.intercalate_cons_of_ne_nil hnil, List.append_assoc, List.singleton_append,
          words_append_cons hsep, ih h.2, hone t h.1, ← List.filter_append,
          List.singleton_append]

/-! ## Texts that follow one another -/

/-- The text begins with a word. -/
def StartsWord (p : α → Bool) (text : List α) : Prop := ∃ c rest, text = c :: rest ∧ p c = false

theorem StartsWord.append {xs : List α} (h : StartsWord p xs) (ys : List α) :
    StartsWord p (xs ++ ys) := by
  obtain ⟨c, rest, rfl, hc⟩ := h
  exact ⟨c, rest ++ ys, rfl, hc⟩

theorem StartsWord.ne_nil {xs : List α} (h : StartsWord p xs) : xs ≠ [] := by
  obtain ⟨c, rest, rfl, -⟩ := h
  exact List.cons_ne_nil c rest

/-- The text ends with a separator. -/
def EndsSep (p : α → Bool) (text : List α) : Prop := ∃ init c, text = init ++ [c] ∧ p c = true

instance (text : List α) : Decidable (EndsSep p text) :=
  decidable_of_iff (∃ c ∈ text.getLast?, p c = true) <| by
    constructor
    · rintro ⟨c, hc, hp⟩
      obtain ⟨init, rfl⟩ := List.getLast?_eq_some_iff.mp hc
      exact ⟨init, c, rfl, hp⟩
    · rintro ⟨init, c, rfl, hp⟩
      exact ⟨c, by simp, hp⟩

theorem words_append_of_endsSep {xs : List α} (h : EndsSep p xs) (ys : List α) :
    words p (xs ++ ys) = words p xs ++ words p ys := by
  obtain ⟨init, c, rfl, hc⟩ := h
  rw [List.append_assoc, List.singleton_append, words_append_cons hc,
    words_append_seps (by simpa using hc)]

/-- A byte in front of a word belongs to it. -/
theorem length_words_cons_word {c : α} {ys : List α} (hc : p c = false) (h : StartsWord p ys) :
    (words p (c :: ys)).length = (words p ys).length := by
  obtain ⟨d, rest, rfl, hd⟩ := h
  have hstart : (c :: d :: rest).dropWhile p = c :: d :: rest :=
    List.dropWhile_cons_of_neg (by simp [hc])
  have hnext : (d :: rest).dropWhile p = d :: rest := List.dropWhile_cons_of_neg (by simp [hd])
  rw [words_eq_cons hstart, words_eq_cons hnext, List.length_cons, List.length_cons,
    List.dropWhile_cons_of_pos (by simp [hc])]

/-- Where two texts meet without a separator, two words become one. -/
theorem length_words_append {xs ys : List α} (hne : xs ≠ []) (hxs : ¬ EndsSep p xs)
    (hys : StartsWord p ys) :
    (words p (xs ++ ys)).length + 1 = (words p xs).length + (words p ys).length := by
  induction xs with
  | nil => exact absurd rfl hne
  | cons c xs ih =>
      by_cases hnil : xs = []
      · subst hnil
        have hc : p c = false := by
          by_contra hc
          exact hxs ⟨[], c, rfl, by simpa using hc⟩
        rw [List.singleton_append, length_words_cons_word hc hys,
          words_of_word hne (by simpa using hc), List.length_singleton, Nat.add_comm]
      · have hrest : ¬ EndsSep p xs := by
          rintro ⟨init, d, rfl, hd⟩
          exact hxs ⟨c :: init, d, rfl, hd⟩
        have hih := ih hnil hrest
        by_cases hc : p c = true
        · rw [List.cons_append, words_cons_sep hc, words_cons_sep hc, hih]
        · have hc : p c = false := by simpa using hc
          obtain ⟨d, xs, rfl⟩ := List.exists_cons_of_ne_nil hnil
          by_cases hd : p d = true
          · have hone : ∀ zs, words p (c :: d :: zs) = [c] :: words p zs := fun zs =>
              words_word_append (w := [c]) (by simp) (by simpa using hc) hd zs
            rw [List.cons_append, words_cons_sep hd, words_cons_sep hd] at hih
            rw [List.cons_append, List.cons_append, hone, hone, List.length_cons, List.length_cons]
            omega
          · have hd : p d = false := by simpa using hd
            have hword : StartsWord p (d :: xs) := ⟨d, xs, rfl, hd⟩
            rw [List.cons_append, length_words_cons_word hc (hword.append ys),
              length_words_cons_word hc hword, hih]

/-- The same for a text in front of several others. -/
theorem length_words_append_flatten {t u : List α} (ht : StartsWord p t) (hsep : ¬ EndsSep p t)
    (hu : StartsWord p u) (texts : List (List α)) :
    (words p (t ++ (u :: texts).flatten)).length + 1 =
      (words p t).length + (words p (u :: texts).flatten).length :=
  length_words_append ht.ne_nil hsep (hu.append texts.flatten)

theorem length_words_flatten_le {texts : List (List α)} (h : ∀ t ∈ texts, StartsWord p t) :
    (words p texts.flatten).length ≤ (texts.flatMap (words p)).length := by
  induction texts with
  | nil => simp
  | cons t texts ih =>
      rw [List.forall_mem_cons] at h
      have hih := ih h.2
      rw [List.flatten_cons, List.flatMap_cons, List.length_append]
      by_cases ht : EndsSep p t
      · rw [words_append_of_endsSep ht, List.length_append]
        omega
      · cases texts with
        | nil => simp
        | cons u texts =>
            have hjoin := length_words_append_flatten h.1 ht (h.2 u List.mem_cons_self) texts
            omega

/-- Texts that begin with a word keep their words when they are put together
exactly when all but the last end with a separator. -/
theorem words_flatten_iff {texts : List (List α)} (h : ∀ t ∈ texts, StartsWord p t) :
    words p texts.flatten = texts.flatMap (words p) ↔ ∀ t ∈ texts.dropLast, EndsSep p t := by
  induction texts with
  | nil => simp
  | cons t texts ih =>
      have hall := List.forall_mem_cons.mp h
      cases texts with
      | nil => simp
      | cons u texts =>
          rw [List.dropLast_cons_cons, List.forall_mem_cons, ← ih hall.2, List.flatten_cons,
            List.flatMap_cons]
          by_cases ht : EndsSep p t
          · rw [words_append_of_endsSep ht, List.append_cancel_left_eq]
            exact (and_iff_right ht).symm
          · refine iff_of_false (fun heq => ?_) (fun hsep => ht hsep.1)
            -- one word is missing
            have hle := length_words_flatten_le hall.2
            have hlen := congrArg List.length heq
            have hjoin := length_words_append_flatten hall.1 ht (hall.2 u List.mem_cons_self)
              texts
            rw [List.length_append] at hlen
            omega

end Words
