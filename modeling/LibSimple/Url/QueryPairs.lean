import LibSimple.Url.Model
import LibSimple.Support.Words

/-!
# The pairs of a query

`_parse_query` takes the text between two `&` for a pair when there is an `=` in
it, and splits it at the first one.
-/

namespace LibSimple.Url

open CLang Words

/-- The byte `'&'`. -/
abbrev ampersand : UInt8 := charByte '&'

/-- The byte `'='`. -/
abbrev equalSign : UInt8 := charByte '='

/-! ## The calls of `strtok` -/

/-- The tokens of a text are its words. -/
theorem strtok_eq_words (s : CStr) (delim : UInt8) :
    strtok s delim = (words (· == delim) s.val).map CStr.ofBuffer := by
  rw [strtok, words, List.splitOn_eq_splitOnP]
  congr 2
  funext w
  cases w with
  | nil => rfl
  | cons c w => rfl

theorem words_strtokNext {saved rest : List UInt8} {delim : UInt8} {token : CStr}
    (h : strtokNext saved delim = some (token, rest)) :
    (words (· == delim) saved).map CStr.ofBuffer =
        token :: (words (· == delim) rest).map CStr.ofBuffer ∧
      rest.length < saved.length := by
  have hpred : (fun c : UInt8 => decide (c ≠ delim)) = fun c => !(c == delim) := by
    funext c
    by_cases hc : c = delim
    · simp [hc]
    · simp [hc]
  rw [strtokNext, hpred] at h
  cases hdrop : saved.dropWhile (· == delim) with
  | nil =>
      rw [hdrop] at h
      cases h
  | cons c text =>
      rw [hdrop] at h
      cases h
      have hc : (c == delim) = false := by
        have hne : saved.dropWhile (· == delim) ≠ [] := by simp [hdrop]
        simpa [hdrop] using List.head_dropWhile_not (· == delim) hne
      have hsaved := (List.dropWhile_suffix (l := saved) (· == delim)).length_le
      have htext := (List.dropWhile_suffix (l := text) fun c => !(c == delim)).length_le
      rw [hdrop, List.length_cons] at hsaved
      rw [words_eq_cons hdrop, List.dropWhile_cons_of_pos (by simp [hc])]
      refine ⟨?_, by rw [List.length_drop]; omega⟩
      rw [List.map_cons]
      congr 2
      cases hrest : text.dropWhile (fun c => !(c == delim)) with
      | nil => rfl
      | cons d post =>
          have hd : (d == delim) = true := by
            have hne : text.dropWhile (fun c => !(c == delim)) ≠ [] := by simp [hrest]
            simpa [hrest] using List.head_dropWhile_not (fun c => !(c == delim)) hne
          exact words_cons_sep (p := (· == delim)) hd post

theorem words_of_strtokNext_none {saved : List UInt8} {delim : UInt8}
    (h : strtokNext saved delim = none) : words (· == delim) saved = [] := by
  rw [strtokNext] at h
  cases hdrop : saved.dropWhile (· == delim) with
  | nil => simpa using words_of_seps (List.dropWhile_eq_nil_iff.mp hdrop) []
  | cons c text =>
      rw [hdrop] at h
      cases h

/-- Going from token to token takes the pairs of all the tokens. -/
theorem parseQueryLoop_eq {fuel : ℕ} {saved : List UInt8} (hfuel : saved.length < fuel)
    (head : List KeyValue) :
    parseQueryLoop fuel saved head =
      ((words (· == ampersand) saved).map CStr.ofBuffer).foldlM putPair head := by
  induction fuel generalizing saved head with
  | zero => omega
  | succ fuel ih =>
      rw [parseQueryLoop]
      cases hnext : strtokNext saved ampersand with
      | none =>
          rw [words_of_strtokNext_none hnext]
          rfl
      | some r =>
          obtain ⟨token, rest⟩ := r
          obtain ⟨hwords, hlt⟩ := words_strtokNext hnext
          have hrest : rest.length < fuel := by omega
          rw [hwords, List.foldlM_cons]
          dsimp only
          congr 1
          funext head
          exact ih hrest head

/-- `_parse_query` with the state of `strtok`. -/
theorem parseQuery_eq_loop (query : CStr) (head : List KeyValue) :
    parseQuery query head = parseQueryLoop (query.strlen + 1) query.val head := by
  have hfuel : query.val.length < query.strlen + 1 := Nat.lt_succ_self query.val.length
  rw [parseQueryLoop_eq hfuel, parseQuery, strtok_eq_words]

/-! ## Segments of a query -/

/-- A key and a value as a query can carry them. -/
structure QueryPair extends KeyValue where
  key_plain : equalSign ∉ key.val ∧ ampersand ∉ key.val
  value_plain : ampersand ∉ value.val

/-- What stands between two `&`: a pair, or a text without `=`, which may be empty. -/
inductive Segment
  | pair (kv : QueryPair)
  | other (text : CStr) (plain : equalSign ∉ text.val ∧ ampersand ∉ text.val)

namespace Segment

def text : Segment → CStr
  | pair kv => ⟨kv.key.val ++ equalSign :: kv.value.val, by
      simp only [List.mem_append, List.mem_cons, not_or]
      exact ⟨kv.key.2, by decide, kv.value.2⟩⟩
  | other text _ => text

def pair? : Segment → Option KeyValue
  | pair kv => some kv.toKeyValue
  | other _ _ => none

theorem ampersand_notMem (seg : Segment) : ampersand ∉ seg.text.val := by
  cases seg with
  | pair kv =>
      simp only [text, List.mem_append, List.mem_cons, not_or]
      exact ⟨kv.key_plain.2, by decide, kv.value_plain⟩
  | other text plain => exact plain.2

/-- An empty segment is no token and no pair. -/
theorem pair?_of_empty {seg : Segment} (h : seg.text.val = []) : seg.pair? = none := by
  cases seg with
  | pair kv => simp [text] at h
  | other text plain => rfl

end Segment

/-- The segments with an `&` between any two. -/
def queryText (segs : List Segment) : CStr :=
  ⟨[ampersand].intercalate (segs.map fun seg => seg.text.val), fun hmem => by
    rcases mem_of_mem_intercalate hmem with h | ⟨t, ht, hzero⟩
    · exact absurd h (by decide)
    · obtain ⟨seg, -, rfl⟩ := List.mem_map.mp ht
      exact seg.text.2 hzero⟩

/-- `my_strndup` can make a string of every key. -/
def KeysFit (segs : List Segment) : Prop :=
  ∀ kv ∈ segs.filterMap Segment.pair?, kv.key.strlen + 4 ≤ intMax

theorem parseKv_segment {seg : Segment}
    (hfit : ∀ kv, seg.pair? = some kv → kv.key.strlen + 4 ≤ intMax) :
    parseKv seg.text = some seg.pair? := by
  cases seg with
  | other text plain =>
      have hnone : text.val.dropWhile (· ≠ equalSign) = [] := by
        rw [List.dropWhile_eq_nil_iff]
        intro c hc
        rw [decide_eq_true_iff]
        rintro rfl
        exact plain.1 hc
      rw [parseKv, Segment.text, hnone]
      rfl
  | pair kv =>
      have hkey : ∀ c ∈ kv.key.val, decide (c ≠ equalSign) = true := by
        intro c hc
        rw [decide_eq_true_iff]
        rintro rfl
        exact kv.key_plain.1 hc
      have hkeyFit : kv.key.val.length + 4 ≤ intMax := hfit kv.toKeyValue rfl
      have htake : ((Segment.pair kv).text.val.takeWhile (· ≠ equalSign)) = kv.key.val := by
        show (kv.key.val ++ equalSign :: kv.value.val).takeWhile (· ≠ equalSign) = kv.key.val
        rw [List.takeWhile_append_of_pos hkey, List.takeWhile_cons_of_neg (by decide),
          List.append_nil]
      have hdrop : ((Segment.pair kv).text.val.dropWhile (· ≠ equalSign)) =
          equalSign :: kv.value.val := by
        show (kv.key.val ++ equalSign :: kv.value.val).dropWhile (· ≠ equalSign) = _
        rw [List.dropWhile_append_of_pos hkey, List.dropWhile_cons_of_neg (by decide)]
      obtain ⟨key, hmade, hval⟩ :=
        holds_myStrndup (s := (Segment.pair kv).text) (t := equalSign :: kv.value.val) rfl hkeyFit
      obtain rfl : key = kv.key := Subtype.ext hval
      rw [parseKv, hdrop, htake, wrapInt_natCast (by omega), hmade]
      show some (some (⟨kv.key, CStr.ofBuffer kv.value.val⟩ : KeyValue)) = some (some kv.toKeyValue)
      rw [CStr.ofBuffer_val]

theorem foldlM_putPair {segs : List Segment} (hfit : KeysFit segs) (head : List KeyValue) :
    (((segs.map fun seg => seg.text.val).filter fun t => !t.isEmpty).map CStr.ofBuffer).foldlM
      putPair head = some ((segs.filterMap Segment.pair?).reverse ++ head) := by
  induction segs generalizing head with
  | nil => rfl
  | cons seg segs ih =>
      have hseg : ∀ kv, seg.pair? = some kv → kv.key.strlen + 4 ≤ intMax := fun kv hkv =>
        hfit kv (List.mem_filterMap.mpr ⟨seg, List.mem_cons_self, hkv⟩)
      have hrest := ih fun kv hkv => by
        obtain ⟨seg', hmem, hkv⟩ := List.mem_filterMap.mp hkv
        exact hfit kv (List.mem_filterMap.mpr ⟨seg', List.mem_cons_of_mem seg hmem, hkv⟩)
      rw [List.map_cons]
      by_cases hnil : seg.text.val = []
      · rw [List.filter_cons_of_neg (by simp [hnil]), hrest,
          List.filterMap_cons_none (Segment.pair?_of_empty hnil)]
      · rw [List.filter_cons_of_pos (by simpa using hnil), List.map_cons, CStr.ofBuffer_val,
          List.foldlM_cons, putPair, parseKv_segment hseg]
        cases hpair : seg.pair? with
        | none =>
            rw [List.filterMap_cons_none hpair]
            exact hrest head
        | some kv =>
            rw [List.filterMap_cons_some hpair, List.reverse_cons, List.append_assoc]
            exact hrest (kv :: head)

theorem parseQuery_of_keysFit {segs : List Segment} (hfit : KeysFit segs) (head : List KeyValue) :
    parseQuery (queryText segs) head =
      some ((segs.filterMap Segment.pair?).reverse ++ head) := by
  have hplain : ∀ t ∈ segs.map fun seg => seg.text.val, ∀ c ∈ t, (c == ampersand) = false := by
    intro t ht c hc
    obtain ⟨seg, -, rfl⟩ := List.mem_map.mp ht
    rw [beq_eq_false_iff_ne]
    rintro rfl
    exact seg.ampersand_notMem hc
  have hwords : words (· == ampersand) (queryText segs).val =
      (segs.map fun seg => seg.text.val).filter fun t => !t.isEmpty :=
    words_intercalate (p := (· == ampersand)) (beq_self_eq_true ampersand) hplain
  rw [parseQuery, strtok_eq_words, hwords, foldlM_putPair hfit]

/-! ## Lengths -/

theorem length_le_of_mem_strtok {s : CStr} {delim : UInt8} {token : CStr}
    (h : token ∈ strtok s delim) : token.strlen ≤ s.strlen := by
  rw [strtok, List.mem_map] at h
  obtain ⟨w, hw, rfl⟩ := h
  have hjoin : w.length ≤ ([delim].intercalate (s.val.splitOn delim)).length :=
    length_le_of_mem_intercalate (List.mem_of_mem_filter hw)
  rw [List.intercalate_splitOn] at hjoin
  exact (CStr.strlen_ofBuffer_le w).trans hjoin

theorem exists_parseKv {p : CStr} (hfit : p.strlen + 4 ≤ intMax) : ∃ kv, parseKv p = some kv := by
  rw [parseKv]
  cases p.val.dropWhile (· ≠ charByte '=') with
  | nil => exact ⟨none, rfl⟩
  | cons c value =>
      have hkey : (p.val.takeWhile (· ≠ charByte '=')).length ≤ p.strlen :=
        (List.takeWhile_prefix _).length_le
      obtain ⟨key, hsome, -⟩ := holds_myStrndup
        (List.takeWhile_append_dropWhile (p := (· ≠ charByte '=')) (l := p.val)).symm (by omega)
      rw [wrapInt_natCast (by omega), hsome]
      exact ⟨_, rfl⟩

/-- The query that `my_strndup` has made has keys that it can make. -/
theorem exists_parseQuery {query : CStr} (hfit : query.strlen + 4 ≤ intMax)
    (head : List KeyValue) : ∃ pairs, parseQuery query head = some pairs := by
  have htokens : ∀ p ∈ strtok query (charByte '&'), p.strlen + 4 ≤ intMax := by
    intro p hp
    have hle := length_le_of_mem_strtok hp
    omega
  rw [parseQuery]
  generalize strtok query (charByte '&') = tokens at htokens
  induction tokens generalizing head with
  | nil => exact ⟨head, rfl⟩
  | cons p tokens ih =>
      rw [List.forall_mem_cons] at htokens
      obtain ⟨kv, hkv⟩ := exists_parseKv htokens.1
      rw [List.foldlM_cons, putPair, hkv]
      cases kv with
      | none => exact ih head htokens.2
      | some kv => exact ih (kv :: head) htokens.2

theorem keysFit_of_strlen_le {segs : List Segment} (h : (queryText segs).strlen + 4 ≤ intMax) :
    KeysFit segs := by
  intro kv hkv
  obtain ⟨seg, hmem, hpair⟩ := List.mem_filterMap.mp hkv
  have hseg : seg.text.strlen ≤ (queryText segs).strlen :=
    length_le_of_mem_intercalate (List.mem_map.mpr ⟨seg, hmem, rfl⟩)
  cases seg with
  | other text plain => cases hpair
  | pair pair =>
      cases hpair
      have hkey : pair.key.strlen ≤ (Segment.pair pair).text.strlen := by
        show pair.key.val.length ≤ (pair.key.val ++ equalSign :: pair.value.val).length
        rw [List.length_append]
        omega
      omega

/-- The list of pairs holds those of the query, the last one first, whatever stands
between them. -/
theorem parseQuery_segments {segs : List Segment} (hquery : (queryText segs).strlen + 4 ≤ intMax)
    (head : List KeyValue) :
    parseQuery (queryText segs) head =
      some ((segs.filterMap Segment.pair?).reverse ++ head) :=
  parseQuery_of_keysFit (keysFit_of_strlen_le hquery) head

/-- `&a=1&&x&=b=c`: two pairs, the second with an empty key, and an `=` in its value. -/
def twoPairs : List Segment :=
  let none : CStr := CStr.ofBuffer []
  [.other none (by decide),
    .pair ⟨⟨⟨bytes ['a'], by decide⟩, ⟨bytes ['1'], by decide⟩⟩, by decide, by decide⟩,
    .other none (by decide),
    .other ⟨bytes ['x'], by decide⟩ (by decide),
    .pair ⟨⟨none, ⟨bytes ['b', '=', 'c'], by decide⟩⟩, by decide, by decide⟩]

theorem parseQuery_segments_two :
    (queryText twoPairs).val = bytes "&a=1&&x&=b=c".toList ∧
      parseQuery (queryText twoPairs) [] =
        some ((twoPairs.filterMap Segment.pair?).reverse ++ []) :=
  ⟨by decide +kernel, parseQuery_segments (by decide +kernel) []⟩

end LibSimple.Url
