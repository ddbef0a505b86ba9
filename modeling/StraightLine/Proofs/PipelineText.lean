import Mathlib
import StraightLine.Pipeline
import StraightLine.Proofs.WellFormed

/-!
# The text of a pipeline

What the pieces of a text are, and what is left of a piece without the blanks around it, is said
here of the texts themselves (`Text.Pieces`, `Text.Trimmed`), and that splitting and trimming give
just that and nothing else (`Text.pieces_iff`, `Text.trimmed_iff`).

A text lists passes when each of its pieces between commas is blank or names a pass. Reading it
gives those passes in order, and stops at the first piece that is neither; the text of a pipeline
lists the passes that it was written from (`Pipeline.parse_exact`).
-/

namespace StraightLine

/-! ### Pieces -/

namespace Text

variable {sep : Char} {s t : String} {pieces : List String}

/-- The pieces of a text: none contains the separator, and with separators between them they are the
text. -/
structure Pieces (sep : Char) (s : String) (pieces : List String) : Prop where
  ne_nil : pieces ≠ []
  separated : ∀ p ∈ pieces, sep ∉ p.toList
  joined : (String.singleton sep).intercalate pieces = s

theorem splitChars_eq_splitOn (sep : Char) (cs : List Char) :
    splitChars sep cs = cs.splitOn sep := by
  induction cs with
  | nil => rfl
  | cons c cs ih =>
    rw [splitChars, ih, List.splitOn_cons_eq_if_modifyHead]
    by_cases hc : c = sep
    · simp [hc]
    · rw [if_neg hc, if_neg (by simpa using hc)]
      cases hsplit : cs.splitOn sep with
      | nil => exact absurd hsplit (List.splitOn_ne_nil sep cs)
      | cons piece pieces => rfl

/-- There is no separator in a piece. -/
theorem notMem_splitChars (sep : Char) (cs : List Char) : ∀ p ∈ splitChars sep cs, sep ∉ p := by
  fun_induction splitChars sep cs with
  | case1 => simp
  | case2 cs ih => simpa using ih
  | case3 c cs hc hnil ih => simpa using Ne.symm hc
  | case4 c cs hc piece pieces hsplit ih =>
    rw [hsplit, List.forall_mem_cons] at ih
    refine List.forall_mem_cons.2 ⟨?_, ih.2⟩
    rw [List.mem_cons, not_or]
    exact ⟨Ne.symm hc, ih.1⟩

theorem pieces_splitAt (sep : Char) (s : String) : Pieces sep s (splitAt sep s) where
  ne_nil := by simp [splitAt, splitChars_eq_splitOn]
  separated := by simpa [splitAt] using notMem_splitChars sep s.toList
  joined := by
    apply String.toList_inj.1
    simp [splitAt, splitChars_eq_splitOn, Function.comp_def, List.intercalate_splitOn]

/-- **A text has one list of pieces, which splitting finds.** -/
theorem pieces_iff : Pieces sep s pieces ↔ splitAt sep s = pieces := by
  refine ⟨fun h => ?_, fun h => h ▸ pieces_splitAt sep s⟩
  have hfree : ∀ p ∈ pieces.map String.toList, sep ∉ p := by simpa using h.separated
  have hsplit : s.toList.splitOn sep = pieces.map String.toList := by
    rw [← h.joined, String.toList_intercalate, String.toList_singleton]
    exact List.splitOn_intercalate sep hfree (by simpa using h.ne_nil)
  simp [splitAt, splitChars_eq_splitOn, hsplit, Function.comp_def]

/-! ### Blanks -/

/-- The text `t` is what is left of `s` when the blanks at its two ends are taken off. -/
structure Trimmed (s t : String) : Prop where
  around : ∃ a b : List Char, (∀ c ∈ a, isBlank c = true) ∧ (∀ c ∈ b, isBlank c = true) ∧
    s.toList = a ++ t.toList ++ b
  first : ∀ c, t.toList.head? = some c → isBlank c = false
  last : ∀ c, t.toList.getLast? = some c → isBlank c = false

theorem not_of_head?_dropWhile {p : Char → Bool} {cs : List Char} {c : Char}
    (h : (cs.dropWhile p).head? = some c) : p c = false := by
  have hnot := List.head?_dropWhile_not p cs
  rw [h] at hnot
  exact hnot

/-- Trimming takes off the blanks at the ends and stops there. -/
theorem trimChars_append {a b cs : List Char} (ha : ∀ c ∈ a, isBlank c = true)
    (hb : ∀ c ∈ b, isBlank c = true) (hfirst : ∀ c, cs.head? = some c → isBlank c = false)
    (hlast : ∀ c, cs.getLast? = some c → isBlank c = false) : trimChars (a ++ cs ++ b) = cs := by
  have hb' : ∀ c ∈ b.reverse, isBlank c = true := by simpa using hb
  rw [trimChars, List.append_assoc, List.dropWhile_append_of_pos ha]
  cases cs with
  | nil => rw [List.nil_append, List.dropWhile_eq_nil_iff.2 hb]; rfl
  | cons c cs =>
    have hleft : (c :: cs ++ b).dropWhile isBlank = c :: cs ++ b :=
      List.dropWhile_cons_of_neg (by simp [hfirst c rfl])
    have hright : (c :: cs).reverse.dropWhile isBlank = (c :: cs).reverse := by
      refine List.dropWhile_eq_self_iff.2 fun hpos => ?_
      rw [Bool.not_eq_true]
      refine hlast _ ?_
      rw [← List.head?_reverse, List.head?_eq_getElem?, List.getElem?_eq_getElem hpos]
    rw [hleft, List.reverse_append, List.dropWhile_append_of_pos hb', hright, List.reverse_reverse]

theorem trimmed_trim (s : String) : Trimmed s (trim s) := by
  obtain ⟨cs, hcs⟩ : ∃ cs, cs = s.toList.dropWhile isBlank := ⟨_, rfl⟩
  have htrim : (trim s).toList = (cs.reverse.dropWhile isBlank).reverse := by
    rw [hcs, trim, String.toList_ofList, trimChars]
  have hback : cs = (trim s).toList ++ (cs.reverse.takeWhile isBlank).reverse := by
    rw [htrim, ← List.reverse_append, List.takeWhile_append_dropWhile, List.reverse_reverse]
  refine ⟨⟨s.toList.takeWhile isBlank, (cs.reverse.takeWhile isBlank).reverse, ?_, ?_, ?_⟩, ?_, ?_⟩
  · exact fun c hc => List.mem_takeWhile_imp hc
  · exact fun c hc => List.mem_takeWhile_imp (List.mem_reverse.1 hc)
  · rw [List.append_assoc, ← hback, hcs, List.takeWhile_append_dropWhile]
  · intro c hc
    have hhead : (s.toList.dropWhile isBlank).head? = some c := by
      rw [← hcs, hback, List.head?_append, hc, Option.some_or]
    exact not_of_head?_dropWhile hhead
  · intro c hc
    rw [htrim, List.getLast?_reverse] at hc
    exact not_of_head?_dropWhile hc

/-- **Trimming is the only way to take off the blanks at the ends.** -/
theorem trimmed_iff : Trimmed s t ↔ trim s = t := by
  refine ⟨fun h => ?_, fun h => h ▸ trimmed_trim s⟩
  obtain ⟨a, b, ha, hb, hs⟩ := h.around
  rw [trim, hs, trimChars_append ha hb h.first h.last, String.ofList_toList]

theorem forall₂_trimmed_iff {ns : List String} :
    List.Forall₂ Trimmed pieces ns ↔ pieces.map trim = ns := by
  have htrim : Trimmed = fun p n => trim p = n := funext₂ fun _ _ => propext trimmed_iff
  rw [htrim, ← List.forall₂_map_left_iff, List.forall₂_eq_eq_eq]

end Text

/-! ### Names -/

namespace Pass

variable {p : Pass} {s : String} {e : Error} {ns : List String} {ps : List Pass}

theorem mem_all (p : Pass) : p ∈ all := by cases p <;> decide

theorem name_injective : Function.Injective name := by
  intro p q h
  cases p <;> cases q <;> first | rfl | simp [name] at h

theorem name_ne_empty (p : Pass) : p.name ≠ "" := by cases p <;> decide

/-- A name has no comma in it. -/
theorem comma_notMem_name (p : Pass) : ',' ∉ p.name.toList := by cases p <;> decide

/-- A name has no blanks at its ends. -/
theorem trim_name (p : Pass) : Text.trim p.name = p.name := by cases p <;> decide

theorem ofName_eq_ok : ofName s = .ok p ↔ s = p.name := by
  unfold ofName
  split
  next q hq =>
    obtain rfl : q.name = s := by simpa using List.find?_some hq
    simp [name_injective.eq_iff]
  next hnone =>
    have hne : p.name ≠ s := by simpa using List.find?_eq_none.1 hnone p (mem_all p)
    simp [hne.symm]

theorem ofName_eq_error :
    ofName s = .error e ↔
      (∀ p : Pass, s ≠ p.name) ∧ e = .toolchain ("Unknown pass '" ++ s ++ "'") := by
  unfold ofName
  split
  next q hq =>
    have hq : q.name = s := by simpa using List.find?_some hq
    simp only [reduceCtorEq, false_iff, not_and]
    exact fun hne => absurd hq.symm (hne q)
  next hnone =>
    have hne (p : Pass) : s ≠ p.name := by
      have : p.name ≠ s := by simpa using List.find?_eq_none.1 hnone p (mem_all p)
      exact this.symm
    simp [hne, eq_comm]

/-- Names are read one by one. -/
theorem mapM_ofName_eq_ok : ns.mapM ofName = .ok ps ↔ ns = ps.map name := by
  induction ns generalizing ps with
  | nil => simp [pure, Except.pure, eq_comm]
  | cons n ns ih =>
    rw [List.mapM_cons, bind_eq_ok]
    constructor
    · rintro ⟨p, hp, h⟩
      obtain ⟨qs, hqs, h⟩ := bind_eq_ok.1 h
      cases h
      rw [List.map_cons, ofName_eq_ok.1 hp, ih.1 hqs]
    · intro h
      obtain ⟨p, qs, rfl, hp, hqs⟩ := List.map_eq_cons_iff.1 h.symm
      exact ⟨p, ofName_eq_ok.2 hp.symm, bind_eq_ok.2 ⟨qs, ih.2 hqs.symm, rfl⟩⟩

/-- Reading names stops at the first that is none. -/
theorem mapM_ofName_eq_error (h : ns.mapM ofName = .error e) :
    ∃ before n after, ns = before ++ n :: after ∧ (∀ x ∈ before, ∃ p : Pass, x = p.name) ∧
      (∀ p : Pass, n ≠ p.name) ∧ e = .toolchain ("Unknown pass '" ++ n ++ "'") := by
  induction ns with
  | nil => cases h
  | cons n ns ih =>
    rw [List.mapM_cons] at h
    cases hn : ofName n with
    | error e' =>
      obtain ⟨hne, rfl⟩ := ofName_eq_error.1 hn
      rw [hn] at h
      cases h
      exact ⟨[], n, ns, rfl, by simp, hne, rfl⟩
    | ok p =>
      cases hns : ns.mapM ofName with
      | ok ps =>
        rw [hn, hns] at h
        cases h
      | error e' =>
        rw [hn, hns] at h
        cases h
        obtain ⟨before, m, after, rfl, hbefore, hm⟩ := ih hns
        refine ⟨n :: before, m, after, rfl, List.forall_mem_cons.2 ⟨⟨p, ?_⟩, hbefore⟩, hm⟩
        exact ofName_eq_ok.1 hn

end Pass

/-! ### Pipelines -/

namespace Pipeline

variable {p : Pipeline} {s : String} {e : Error}

theorem parse_eq_ok :
    parse s = .ok p ↔ p.verifyEach = true ∧ names s = p.passes.map Pass.name := by
  rw [parse, bind_eq_ok]
  constructor
  · rintro ⟨ps, hps, h⟩
    cases h
    exact ⟨rfl, Pass.mapM_ofName_eq_ok.1 hps⟩
  · rintro ⟨heach, hnames⟩
    obtain ⟨ps, each⟩ := p
    obtain rfl : each = true := heach
    exact ⟨ps, Pass.mapM_ofName_eq_ok.2 hnames, rfl⟩

theorem parse_eq_error (h : parse s = .error e) : (names s).mapM Pass.ofName = .error e := by
  rw [parse] at h
  cases hnames : (names s).mapM Pass.ofName with
  | ok ps =>
    rw [hnames] at h
    cases h
  | error e' =>
    rw [hnames] at h
    cases h
    rfl

/-- The names in the text of a pipeline are those of its passes. -/
theorem names_text (p : Pipeline) : names p.text = p.passes.map Pass.name := by
  cases hps : p.passes with
  | nil =>
    have htext : p.text = "" := by simp [text, hps]
    rw [htext]
    decide
  | cons q qs =>
    have hpieces : Text.Pieces ',' p.text (p.passes.map Pass.name) :=
      ⟨by simp [hps], by simpa using fun q _ => q.comma_notMem_name, rfl⟩
    rw [names, Text.pieces_iff.1 hpieces, List.map_map, ← hps]
    have htrim : p.passes.map (Text.trim ∘ Pass.name) = p.passes.map Pass.name :=
      List.map_congr_left fun q _ => q.trim_name
    rw [htrim, List.filter_eq_self]
    simpa using fun q _ => q.name_ne_empty

/-- A piece that is left out, or that names a pass. -/
def Listed (n : String) : Prop := n = "" ∨ ∃ q : Pass, n = q.name

theorem names_eq (s : String) :
    names s = ((Text.splitAt ',' s).map Text.trim).filter (· ≠ "") := by
  rw [names]
  refine List.filter_congr fun n _ => ?_
  rw [Bool.eq_iff_iff]
  simp

/-- In a text that can be read, every piece is listed. -/
theorem listed_of_parse {ns : List String} (hns : names s = ns.filter (· ≠ ""))
    (h : parse s = .ok p) : ∀ n ∈ ns, Listed n := by
  intro n hn
  by_cases hempty : n = ""
  · exact .inl hempty
  · have hmem : n ∈ p.passes.map Pass.name := by
      rw [← (parse_eq_ok.1 h).2, hns]
      exact List.mem_filter.2 ⟨hn, by simpa using hempty⟩
    obtain ⟨q, -, hq⟩ := List.mem_map.1 hmem
    exact .inr ⟨q, hq.symm⟩

/-- In a text that cannot be read, the error gives the first piece that is not listed. -/
theorem unlisted_of_parse {ns : List String} (hns : names s = ns.filter (· ≠ ""))
    (h : parse s = .error e) : ∃ before n after, ns = before ++ n :: after ∧
      (∀ m ∈ before, Listed m) ∧ ¬Listed n ∧ e = .toolchain ("Unknown pass '" ++ n ++ "'") := by
  obtain ⟨before, n, after, hsplit, hbefore, hn, rfl⟩ :=
    Pass.mapM_ofName_eq_error (parse_eq_error h)
  -- The pieces that were left out as blank stand among those before the first that is unknown.
  rw [hns, List.filter_eq_append_iff] at hsplit
  obtain ⟨named, r, rfl, hnamed, hr⟩ := hsplit
  obtain ⟨blank, rest, rfl, hblank, hne, -⟩ := List.filter_eq_cons_iff.1 hr
  refine ⟨named ++ blank, n, rest, by simp, fun m hm => ?_, ?_, rfl⟩
  · by_cases hempty : m = ""
    · exact .inl hempty
    · rcases List.mem_append.1 hm with hm | hm
      · exact .inr (hbefore m (hnamed ▸ List.mem_filter.2 ⟨hm, by simpa using hempty⟩))
      · exact absurd (by simpa using hblank m hm) hempty
  · rintro (rfl | ⟨q, rfl⟩)
    · simp at hne
    · exact hn q rfl

/-- **Reading and writing pipelines.** The text of a pipeline is read as the same list of passes. A
text has just one list of pieces between commas, and these are just one list without the blanks at
their ends. It is read exactly when each of them is empty or the name of a pass; the passes are then
those that are named, in order. Otherwise the error gives the first piece that is neither. -/
theorem parse_exact :
    (∀ p : Pipeline, parse p.text = .ok { passes := p.passes }) ∧
      ∀ s, ∃ pieces ns, Text.Pieces ',' s pieces ∧ List.Forall₂ Text.Trimmed pieces ns ∧
        (∀ pieces' ns', Text.Pieces ',' s pieces' → List.Forall₂ Text.Trimmed pieces' ns' →
          pieces' = pieces ∧ ns' = ns) ∧
        ((∃ p, parse s = .ok p) ↔ ∀ n ∈ ns, Listed n) ∧
        (∀ p, parse s = .ok p →
          p.verifyEach = true ∧ p.passes.map Pass.name = ns.filter (· ≠ "")) ∧
        ∀ e, parse s = .error e → ∃ before n after, ns = before ++ n :: after ∧
          (∀ m ∈ before, Listed m) ∧ ¬Listed n ∧
          e = .toolchain ("Unknown pass '" ++ n ++ "'") := by
  refine ⟨fun p => parse_eq_ok.2 ⟨rfl, names_text p⟩, fun s => ?_⟩
  refine ⟨Text.splitAt ',' s, (Text.splitAt ',' s).map Text.trim, Text.pieces_splitAt ',' s,
    Text.forall₂_trimmed_iff.2 rfl, fun pieces' ns' hpieces hns => ?_, ⟨?_, fun hlisted => ?_⟩,
    fun p hp => ?_, fun e he => unlisted_of_parse (names_eq s) he⟩
  · obtain rfl := Text.pieces_iff.1 hpieces
    exact ⟨rfl, (Text.forall₂_trimmed_iff.1 hns).symm⟩
  · rintro ⟨p, hp⟩
    exact listed_of_parse (names_eq s) hp
  · cases h : parse s with
    | ok p => exact ⟨p, rfl⟩
    | error e =>
      obtain ⟨before, n, after, hns, -, hn, -⟩ := unlisted_of_parse (names_eq s) h
      exact absurd (hlisted n (hns ▸ by simp)) hn
  · obtain ⟨heach, hmap⟩ := parse_eq_ok.1 hp
    exact ⟨heach, by rw [← hmap, names_eq]⟩

example : parse " dce,, sroa\t," = .ok { passes := [.dce, .sroa] } := by decide

end Pipeline

end StraightLine
