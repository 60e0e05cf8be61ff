import PackedLogic.Proofs.JsonTexts
set_option autoImplicit false

/-!
# Scanning well-formed texts

Every scanner reads the text that the grammar has for it, whatever stands behind, and leaves just that
(`Scans`, `Passes`).  A scanner of numbers takes as much as it can, so what stands behind a number
must be a place where a value may end.
-/

namespace PackedLogic.Json

/-- The scanner reads a value off the front of the text and leaves the rest. -/
def Scans {α : Type} (scan : Scan α) (s : List Char) (a : α) (rest : List Char) : Prop :=
  ∃ h : rest.length ≤ s.length, scan s = .ok (a, ⟨rest, h⟩)

/-- The scanner passes over the front of the text and leaves the rest. -/
def Passes (skip : Skip) (s rest : List Char) : Prop :=
  ∃ h : rest.length ≤ s.length, skip s = .ok ⟨rest, h⟩

variable {s t rest : List Char} {c : Char}

/-! ## Single characters -/

theorem exists_next? {b : List Char} (hb : Blanks b) (hc : isBlank c = false) (t : List Char) :
    ∃ h : t.length < (b ++ c :: t).length, next? (b ++ c :: t) = some (c, ⟨t, h⟩) := by
  induction b with
  | nil => exact ⟨Nat.lt_succ_self _, next?_cons_of_not_isBlank hc⟩
  | cons d b ih =>
    obtain ⟨h, hnext⟩ := ih hb.tail
    rw [List.cons_append]
    refine ⟨Nat.lt_succ_of_lt h, ?_⟩
    rw [next?, if_pos hb.head, hnext]
    rfl

theorem next?_blanks {b : List Char} (hb : Blanks b) : next? b = none := by
  induction b with
  | nil => rfl
  | cons c b ih =>
    rw [next?, if_pos hb.head, ih hb.tail]
    rfl

theorem exists_token {b : List Char} (hb : Blanks b) (hc : isBlank c = false) (t : List Char) :
    ∃ h : t.length < (b ++ c :: t).length, token c (b ++ c :: t) = .ok ⟨t, h⟩ := by
  obtain ⟨h, hnext⟩ := exists_next? hb hc t
  refine ⟨h, ?_⟩
  rw [token, hnext]
  exact if_pos rfl

theorem passes_expect (c : Char) (t : List Char) : Passes (expect c) (c :: t) t :=
  ⟨Nat.le_succ _, if_pos rfl⟩

theorem passes_word (w t : List Char) : Passes (word w) (w ++ t) t := by
  induction w with
  | nil => exact ⟨Nat.le_refl _, rfl⟩
  | cons c w ih =>
    obtain ⟨h, hexpect⟩ := passes_expect c (w ++ t)
    obtain ⟨h', hword⟩ := ih
    rw [List.cons_append]
    refine ⟨Nat.le_trans h' h, ?_⟩
    rw [word, hexpect]
    simp only [bind, Except.bind, hword]
    rfl

/-! ## Numerals -/

/-- No digit stands at the front. -/
def NoDigit (s : List Char) : Prop := ∀ c ∈ s.head?, c.isDigit = false

theorem noDigit_cons (h : c.isDigit = false) (s : List Char) : NoDigit (c :: s) := by
  intro d hd
  obtain rfl : c = d := Option.some.inj hd
  exact h

theorem Ends.noDigit (h : Ends s) : NoDigit s := by
  intro c hc
  have hend := h c hc
  simp only [List.mem_cons, List.not_mem_nil, or_false] at hend
  rcases hend with rfl | rfl | rfl | rfl | rfl | rfl | rfl <;> rfl

theorem takeWhile_digits {ds : List Char} (hds : ∀ c ∈ ds, c.isDigit = true) (ht : NoDigit t) :
    (ds ++ t).takeWhile Char.isDigit = ds := by
  rw [List.takeWhile_append_of_pos hds]
  cases t with
  | nil => rw [List.takeWhile_nil, List.append_nil]
  | cons c t => rw [List.takeWhile_cons_of_neg (by simp [ht c rfl]), List.append_nil]

theorem dropWhile_digits {ds : List Char} (hds : ∀ c ∈ ds, c.isDigit = true) (ht : NoDigit t) :
    (ds ++ t).dropWhile Char.isDigit = t := by
  rw [List.dropWhile_append_of_pos hds]
  cases t with
  | nil => rfl
  | cons c t => rw [List.dropWhile_cons_of_neg (by simp [ht c rfl])]

/-- All digits at the front are read. -/
theorem exists_digits {ds : List Char} (hds : ∀ c ∈ ds, c.isDigit = true) (ht : NoDigit t) :
    ∃ h : t.length ≤ (ds ++ t).length, digits (ds ++ t) = (ds.map digitValue, ⟨t, h⟩) := by
  refine ⟨by simp, ?_⟩
  unfold digits
  refine Prod.ext ?_ (Subtype.ext ?_)
  · exact congrArg (List.map digitValue) (takeWhile_digits hds ht)
  · exact dropWhile_digits hds ht

theorem scans_someDigits {ds : List Char} (hds : DigitsText ds) (ht : NoDigit t) :
    Scans someDigits (ds ++ t) (ds.map digitValue) t := by
  obtain ⟨h, hdigits⟩ := exists_digits hds.2 ht
  refine ⟨h, ?_⟩
  rw [someDigits, hdigits]
  cases ds with
  | nil => exact absurd rfl hds.1
  | cons c ds => rfl

/-- A whole part begins with a digit. -/
theorem WholeText.exists_cons {whole : List Char} (h : WholeText whole) :
    ∃ c ds, whole = c :: ds ∧ c.isDigit = true := by
  rcases h with rfl | ⟨⟨hne, hdigits⟩, -⟩
  · exact ⟨'0', [], rfl, rfl⟩
  · obtain ⟨c, ds, rfl⟩ := List.exists_cons_of_ne_nil hne
    exact ⟨c, ds, rfl, hdigits c List.mem_cons_self⟩

theorem scans_wholePart {ds : List Char} (h : WholeText (c :: ds)) (ht : NoDigit t) :
    Scans (wholePart c) (ds ++ t) ((c :: ds).map digitValue) t := by
  rcases h with hzero | ⟨hdigits, hhead⟩
  · obtain ⟨rfl, rfl⟩ := List.cons.inj hzero
    refine ⟨Nat.le_refl _, ?_⟩
    rw [wholePart, if_pos rfl, if_pos]
    · rfl
    · rw [takeWhile_digits (by simp) ht]
      rfl
  · have hne : c ≠ '0' := fun hc => hhead (by rw [hc]; rfl)
    obtain ⟨h, hds⟩ := exists_digits (fun d hd => hdigits.2 d (List.mem_cons_of_mem c hd)) ht
    refine ⟨h, ?_⟩
    rw [wholePart, if_neg hne, if_pos (hdigits.2 c List.mem_cons_self), hds]
    rfl

theorem scans_fractionPart_none (h : '.' ∉ t.head?) : Scans fractionPart t none t := by
  refine ⟨Nat.le_refl _, ?_⟩
  unfold fractionPart
  split
  · exact absurd rfl h
  · rfl

/-- A fraction is read if there is one. -/
theorem exists_scans_fractionPart {fraction : List Char} (h : FractionText fraction)
    (hnone : '.' ∉ t.head?) (ht : NoDigit t) :
    ∃ f, Scans fractionPart (fraction ++ t) f t := by
  rcases h with rfl | ⟨ds, hds, rfl⟩
  · exact ⟨none, scans_fractionPart_none hnone⟩
  · obtain ⟨h, hdigits⟩ := scans_someDigits hds ht
    rw [List.cons_append]
    refine ⟨some (ds.map digitValue), Nat.le_succ_of_le h, ?_⟩
    rw [fractionPart, hdigits]
    rfl

theorem scans_exponentPart_none (h : 'e' ∉ t.head?) (h' : 'E' ∉ t.head?) :
    Scans exponentPart t none t := by
  refine ⟨Nat.le_refl _, ?_⟩
  cases t with
  | nil => rfl
  | cons c t =>
    rw [exponentPart, if_neg]
    · rfl
    · rintro (rfl | rfl)
      · exact h rfl
      · exact h' rfl

theorem exponentSign_none (h : '-' ∉ t.head?) (h' : '+' ∉ t.head?) :
    exponentSign t = (false, .all t) := by
  unfold exponentSign
  split
  · exact absurd rfl h
  · exact absurd rfl h'
  · rfl

theorem exists_exponentSign {sign ds : List Char} (hsign : sign ∈ [[], ['+'], ['-']])
    (hds : DigitsText ds) (t : List Char) :
    ∃ negative, ∃ h : (ds ++ t).length ≤ (sign ++ (ds ++ t)).length,
      exponentSign (sign ++ (ds ++ t)) = (negative, ⟨ds ++ t, h⟩) := by
  simp only [List.mem_cons, List.not_mem_nil, or_false] at hsign
  rcases hsign with rfl | rfl | rfl
  · obtain ⟨d, ds, rfl⟩ := List.exists_cons_of_ne_nil hds.1
    have hd := hds.2 d List.mem_cons_self
    refine ⟨false, Nat.le_refl _, exponentSign_none ?_ ?_⟩
    · rintro ⟨⟩
      cases hd
    · rintro ⟨⟩
      cases hd
  · exact ⟨false, Nat.le_succ _, rfl⟩
  · exact ⟨true, Nat.le_succ _, rfl⟩

/-- An exponent is read if there is one. -/
theorem exists_scans_exponentPart {exponent : List Char} (h : ExponentText exponent) (ht : Ends t) :
    ∃ e, Scans exponentPart (exponent ++ t) e t := by
  rcases h with rfl | ⟨e, he, sign, hsign, ds, hds, rfl⟩
  · refine ⟨none, scans_exponentPart_none ?_ ?_⟩
    · intro hc
      exact absurd (ht 'e' hc) (by decide)
    · intro hc
      exact absurd (ht 'E' hc) (by decide)
  · obtain ⟨negative, h, hsigned⟩ := exists_exponentSign hsign hds t
    obtain ⟨h', hdigits⟩ := scans_someDigits hds ht.noDigit
    rw [List.cons_append, List.append_assoc]
    refine ⟨some (negative, ds.map digitValue), Nat.le_succ_of_le (Nat.le_trans h' h), ?_⟩
    have he' : e = 'e' ∨ e = 'E' := by simpa using he
    rw [exponentPart, if_pos he', hsigned]
    simp only [bind, Except.bind, hdigits]
    rfl

theorem scans_unsignedNumeral {r r' : List Char} {ds : List Nat} {f : Option (List Nat)}
    {e : Option (Bool × List Nat)} (hwhole : Scans (wholePart c) s ds r)
    (hfraction : Scans fractionPart r f r') (hexponent : Scans exponentPart r' e t)
    (negative : Bool) : Scans (unsignedNumeral negative c) s ⟨negative, ds, f, e⟩ t := by
  obtain ⟨h₁, hwhole⟩ := hwhole
  obtain ⟨h₂, hfraction⟩ := hfraction
  obtain ⟨h₃, hexponent⟩ := hexponent
  refine ⟨Nat.le_trans h₃ (Nat.le_trans h₂ h₁), ?_⟩
  rw [unsignedNumeral, hwhole]
  simp only [bind, Except.bind, hfraction, hexponent]
  rfl

/-- What follows the whole part does not go on with it, and what follows the fraction does not begin
one. -/
theorem ExponentText.follows {exponent : List Char} (h : ExponentText exponent) (ht : Ends t) :
    NoDigit (exponent ++ t) ∧ '.' ∉ (exponent ++ t).head? := by
  rcases h with rfl | ⟨e, he, sign, -, ds, -, rfl⟩
  · exact ⟨ht.noDigit, fun hc => absurd (ht '.' hc) (by decide)⟩
  · have he' : e = 'e' ∨ e = 'E' := by simpa using he
    rcases he' with rfl | rfl
    · exact ⟨noDigit_cons rfl _, nofun⟩
    · exact ⟨noDigit_cons rfl _, nofun⟩

theorem FractionText.noDigit {fraction : List Char} (h : FractionText fraction)
    (ht : NoDigit t) : NoDigit (fraction ++ t) := by
  rcases h with rfl | ⟨ds, -, rfl⟩
  · exact ht
  · exact noDigit_cons rfl _

/-- A numeral is read to its end by its first character. -/
theorem NumeralText.exists_scans {v : List Char} (h : NumeralText v) :
    ∃ c s, v = c :: s ∧ startsNumber c = true ∧
      ∀ t, Ends t → ∃ n, Scans (numeral c) (s ++ t) n t := by
  obtain @⟨sign, whole, fraction, exponent, hsign, hwhole, hfraction, hexponent⟩ := h
  obtain ⟨c, ds, rfl, hc⟩ := hwhole.exists_cons
  have hread : ∀ negative t, Ends t →
      ∃ n, Scans (unsignedNumeral negative c) (ds ++ (fraction ++ (exponent ++ t))) n t := by
    intro negative t ht
    obtain ⟨hnoDigit, hnoPoint⟩ := hexponent.follows ht
    obtain ⟨f, hf⟩ := exists_scans_fractionPart hfraction hnoPoint hnoDigit
    obtain ⟨e, he⟩ := exists_scans_exponentPart hexponent ht
    exact ⟨_, scans_unsignedNumeral (scans_wholePart hwhole (hfraction.noDigit hnoDigit)) hf he _⟩
  rcases hsign with rfl | rfl
  · refine ⟨c, ds ++ (fraction ++ exponent), rfl, by simp [startsNumber, hc], ?_⟩
    intro t ht
    obtain ⟨n, h, hscan⟩ := hread false t ht
    have hminus : c ≠ '-' := by
      rintro rfl
      cases hc
    rw [List.append_assoc, List.append_assoc]
    refine ⟨n, h, ?_⟩
    unfold numeral
    rw [if_neg hminus]
    exact hscan
  · refine ⟨'-', c :: (ds ++ (fraction ++ exponent)), rfl, rfl, ?_⟩
    intro t ht
    obtain ⟨n, h, hscan⟩ := hread true t ht
    rw [List.cons_append, List.append_assoc, List.append_assoc]
    refine ⟨n, Nat.le_succ_of_le h, ?_⟩
    unfold numeral
    rw [if_pos rfl]
    simp only [bind, Except.bind, hscan]
    rfl

/-! ## Strings -/

theorem hexDigit?_getElem : ∀ n : Fin 16,
    hexDigit? ("0123456789abcdef".toList[n]) = some n.val ∧
      hexDigit? ("0123456789ABCDEF".toList[n]) = some n.val := by
  decide

theorem HexDigit.eq {n : Nat} (h : HexDigit c n) : hexDigit? c = some n := by
  rcases h with h | h <;> obtain ⟨hlt, rfl⟩ := List.getElem?_eq_some_iff.1 h
  · exact (hexDigit?_getElem ⟨n, hlt⟩).1
  · exact (hexDigit?_getElem ⟨n, hlt⟩).2

/-- A hexadecimal digit may also be passed over as a character of its own. -/
theorem plain_getElem : ∀ n : Fin 16,
    Plain ("0123456789abcdef".toList[n]) ∧ Plain ("0123456789ABCDEF".toList[n]) := by
  unfold Plain
  decide

theorem HexDigit.plain {n : Nat} (h : HexDigit c n) : Plain c := by
  rcases h with h | h <;> obtain ⟨hlt, rfl⟩ := List.getElem?_eq_some_iff.1 h
  · exact (plain_getElem ⟨n, hlt⟩).1
  · exact (plain_getElem ⟨n, hlt⟩).2

theorem CodeUnitText.scans {u : List Char} {n : Nat} (h : CodeUnitText u n) (t : List Char) :
    Scans codeUnit (u ++ t) n t := by
  obtain ⟨ha, hb, hc, hd⟩ := h
  refine ⟨by simp only [List.length_append]; omega, ?_⟩
  simp only [List.cons_append, List.nil_append, codeUnit, hexValue?, ha.eq, hb.eq, hc.eq, hd.eq]
  rfl

theorem letterEscape?_of_mem {e c : Char} (h : (e, c) ∈ escapes) :
    e ≠ 'u' ∧ letterEscape? e = some c := by
  simp only [escapes, List.mem_cons, List.not_mem_nil, or_false, Prod.mk.injEq] at h
  rcases h with ⟨rfl, rfl⟩ | ⟨rfl, rfl⟩ | ⟨rfl, rfl⟩ | ⟨rfl, rfl⟩ | ⟨rfl, rfl⟩ | ⟨rfl, rfl⟩ |
    ⟨rfl, rfl⟩ | ⟨rfl, rfl⟩ <;> exact ⟨by decide, rfl⟩

theorem scans_escape_letter {e c : Char} (he : (e, c) ∈ escapes) (t : List Char) :
    Scans escape (e :: t) c t := by
  obtain ⟨hne, hletter⟩ := letterEscape?_of_mem he
  refine ⟨Nat.le_succ _, ?_⟩
  rw [escape, if_neg hne, hletter]
  rfl

/-- No character is a surrogate. -/
theorem isSurrogate_toNat (c : Char) :
    isLowSurrogate c.toNat = false ∧ isHighSurrogate c.toNat = false := by
  have hvalid : c.toNat < 0xD800 ∨ 0xDFFF < c.toNat ∧ c.toNat < 0x110000 := c.valid
  simp only [isLowSurrogate, isHighSurrogate, Bool.and_eq_false_iff, decide_eq_false_iff_not]
  omega

theorem scans_escape_unit {u : List Char} (hu : CodeUnitText u c.toNat) (t : List Char) :
    Scans escape ('u' :: (u ++ t)) c t := by
  obtain ⟨h, hunit⟩ := hu.scans t
  obtain ⟨hlow, hhigh⟩ := isSurrogate_toNat c
  refine ⟨Nat.le_succ_of_le h, ?_⟩
  rw [escape, if_pos rfl, unicodeEscape, hunit]
  simp only [bind, Except.bind, hlow, hhigh, Char.ofNat_toNat]
  rfl

theorem scans_lowSurrogate {v : List Char} {low : Nat} (hv : CodeUnitText v low)
    (hlow : 0xDC00 ≤ low ∧ low < 0xE000) (t : List Char) :
    Scans lowSurrogate ('\\' :: 'u' :: (v ++ t)) low t := by
  obtain ⟨h, hunit⟩ := hv.scans t
  have hsurrogate : isLowSurrogate low = true := by
    simp only [isLowSurrogate, Bool.and_eq_true, decide_eq_true_eq]
    exact hlow
  refine ⟨Nat.le_succ_of_le (Nat.le_succ_of_le h), ?_⟩
  obtain ⟨h₁, hbackslash⟩ := passes_expect '\\' ('u' :: (v ++ t))
  obtain ⟨h₂, hletter⟩ := passes_expect 'u' (v ++ t)
  rw [lowSurrogate, hbackslash]
  simp only [bind, Except.bind, hletter, hunit, hsurrogate, if_true]
  rfl

theorem scans_escape_pair {u v : List Char} {high low : Nat} (hu : CodeUnitText u high)
    (hhigh : 0xD800 ≤ high ∧ high < 0xDC00) (hv : CodeUnitText v low)
    (hlow : 0xDC00 ≤ low ∧ low < 0xE000)
    (hc : c.toNat = 0x10000 + 0x400 * (high - 0xD800) + (low - 0xDC00)) (t : List Char) :
    Scans escape ('u' :: (u ++ '\\' :: 'u' :: (v ++ t))) c t := by
  obtain ⟨h, hunit⟩ := hu.scans ('\\' :: 'u' :: (v ++ t))
  obtain ⟨h', hsecond⟩ := scans_lowSurrogate hv hlow t
  have hnotLow : isLowSurrogate high = false := by
    simp only [isLowSurrogate, Bool.and_eq_false_iff, decide_eq_false_iff_not]
    omega
  have hisHigh : isHighSurrogate high = true := by
    simp only [isHighSurrogate, Bool.and_eq_true, decide_eq_true_eq]
    exact hhigh
  have hpoint : pairedCodePoint high low = c.toNat := by
    rw [hc, pairedCodePoint]
    omega
  refine ⟨Nat.le_succ_of_le (Nat.le_trans h' h), ?_⟩
  rw [escape, if_pos rfl, unicodeEscape, hunit]
  simp only [bind, Except.bind, hnotLow, hisHigh, hsecond, hpoint, Char.ofNat_toNat, if_true]
  rfl

theorem scans_quoted_close (rest : List Char) : Scans quoted ('"' :: rest) [] rest := by
  refine ⟨Nat.le_succ _, ?_⟩
  rw [quoted, if_pos rfl]
  rfl

theorem scans_quoted_plain (hc : Plain c) (h : Scans quoted s t rest) :
    Scans quoted (c :: s) (c :: t) rest := by
  obtain ⟨hle, hscan⟩ := h
  refine ⟨Nat.le_succ_of_le hle, ?_⟩
  rw [quoted, if_neg hc.2.1, if_neg hc.2.2, if_neg (Char.not_lt.2 hc.1), hscan]
  rfl

theorem scans_quoted_escape {r : List Char} (he : Scans escape s c r)
    (h : Scans quoted r t rest) : Scans quoted ('\\' :: s) (c :: t) rest := by
  obtain ⟨hle, hescape⟩ := he
  obtain ⟨hle', hscan⟩ := h
  refine ⟨Nat.le_succ_of_le (Nat.le_trans hle' hle), ?_⟩
  rw [quoted, if_neg (by decide), if_pos rfl, hescape]
  simp only [bind, Except.bind, hscan]
  rfl

/-- A string is decoded to what it spells. -/
theorem Spells.scans (h : Spells s t) (rest : List Char) :
    Scans quoted (s ++ '"' :: rest) t rest := by
  induction h with
  | nil => exact scans_quoted_close rest
  | plain hc _ ih => exact scans_quoted_plain hc ih
  | letter he _ ih => exact scans_quoted_escape (scans_escape_letter he _) ih
  | unit hu _ ih =>
    simp only [List.cons_append, List.append_assoc]
    exact scans_quoted_escape (scans_escape_unit hu _) ih
  | pair hu hhigh hv hlow hc _ ih =>
    simp only [List.cons_append, List.append_assoc]
    exact scans_quoted_escape (scans_escape_pair hu hhigh hv hlow hc _) ih

theorem skipQuoted_plain (hc : Plain c) (s : List Char) :
    skipQuoted (c :: s) = skipQuoted s := by
  rw [skipQuoted.eq_def]
  dsimp only
  rw [if_neg hc.2.1, if_neg hc.2.2, if_neg (Char.not_lt.2 hc.1)]

theorem skipQuoted_unit {u : List Char} {n : Nat} (hu : CodeUnitText u n) (s : List Char) :
    skipQuoted ('\\' :: 'u' :: (u ++ s)) = skipQuoted s := by
  obtain ⟨h, hunit⟩ := hu.scans s
  rw [skipQuoted, if_neg (by decide), if_pos rfl, checkEscape, if_pos rfl, hunit]
  obtain ⟨ha, hb, hc, hd⟩ := hu
  -- the digits have been looked at, and are passed over one by one
  exact (skipQuoted_plain ha.plain _).trans ((skipQuoted_plain hb.plain _).trans
    ((skipQuoted_plain hc.plain _).trans (skipQuoted_plain hd.plain _)))

theorem StringText.skipQuoted_eq (h : StringText s) (rest : List Char) :
    skipQuoted (s ++ '"' :: rest) = .ok rest := by
  induction h with
  | nil =>
    rw [List.nil_append, skipQuoted.eq_def]
    exact if_pos rfl
  | plain hc _ ih => rw [List.cons_append, skipQuoted_plain hc, ih]
  | letter he _ ih =>
    obtain ⟨hne, hletter⟩ := letterEscape?_of_mem he
    rw [List.cons_append, List.cons_append, skipQuoted, if_neg (by decide), if_pos rfl, checkEscape,
      if_neg hne, hletter]
    exact ih
  | unit hu _ ih =>
    simp only [List.cons_append, List.append_assoc]
    rw [skipQuoted_unit hu, ih]

/-- A string is passed over up to its closing quote. -/
theorem StringText.passes (h : StringText s) (rest : List Char) :
    Passes skipString (s ++ '"' :: rest) rest := by
  have hskip := h.skipQuoted_eq rest
  refine ⟨length_of_skipQuoted hskip, ?_⟩
  unfold skipString
  split
  · rename_i r hr
    rw [hskip] at hr
    obtain rfl := Except.ok.inj hr
    rfl
  · rename_i fault hfault
    rw [hskip] at hfault
    cases hfault

/-! ## Scalars -/

/-- A character that begins a value: no blank, and no bracket that closes. -/
def BeginsValue (c : Char) : Prop := isBlank c = false ∧ c ≠ ']' ∧ c ≠ '}'

instance (c : Char) : Decidable (BeginsValue c) := inferInstanceAs (Decidable (_ ∧ _ ∧ _))

theorem ne_of_startsNumber {d : Char} (h : startsNumber c = true)
    (hd : startsNumber d = false) : c ≠ d := by
  rintro rfl
  rw [h] at hd
  cases hd

theorem bracket?_eq_none (h : c ≠ '[') (h' : c ≠ '{') : bracket? c = none := by
  rw [bracket?, if_neg h, if_neg h']

theorem bracket?_of_startsNumber (h : startsNumber c = true) : bracket? c = none :=
  bracket?_eq_none (ne_of_startsNumber h rfl) (ne_of_startsNumber h rfl)

theorem isBlank_of_startsNumber (h : startsNumber c = true) : isBlank c = false := by
  simp only [isBlank, Bool.or_eq_false_iff, beq_eq_false_iff_ne, ne_eq]
  exact ⟨⟨⟨ne_of_startsNumber h rfl, ne_of_startsNumber h rfl⟩, ne_of_startsNumber h rfl⟩,
    ne_of_startsNumber h rfl⟩

theorem beginsValue_of_startsNumber (h : startsNumber c = true) : BeginsValue c :=
  ⟨isBlank_of_startsNumber h, ne_of_startsNumber h rfl, ne_of_startsNumber h rfl⟩

theorem passes_skipScalar_numeral {n : Numeral} (hc : startsNumber c = true)
    (h : Scans (numeral c) s n t) : Passes (skipScalar c) s t := by
  obtain ⟨hle, hscan⟩ := h
  refine ⟨hle, ?_⟩
  rw [skipScalar, if_neg (ne_of_startsNumber hc rfl), if_neg (ne_of_startsNumber hc rfl),
    if_neg (ne_of_startsNumber hc rfl), if_neg (ne_of_startsNumber hc rfl), if_pos hc, hscan]

/-- A scalar is passed over by its first character. -/
theorem ScalarText.exists_passes {v : List Char} (h : ScalarText v) :
    ∃ c s, v = c :: s ∧ BeginsValue c ∧ bracket? c = none ∧
      ∀ t, Ends t → Passes (skipScalar c) (s ++ t) t := by
  cases h with
  | word h =>
    simp only [List.mem_cons, List.not_mem_nil, or_false] at h
    rcases h with rfl | rfl | rfl
    · exact ⟨'n', ['u', 'l', 'l'], rfl, by decide, rfl, fun t _ => passes_word _ t⟩
    · exact ⟨'t', ['r', 'u', 'e'], rfl, by decide, rfl, fun t _ => passes_word _ t⟩
    · exact ⟨'f', ['a', 'l', 's', 'e'], rfl, by decide, rfl, fun t _ => passes_word _ t⟩
  | numeral h =>
    obtain ⟨c, s, rfl, hc, hscans⟩ := h.exists_scans
    refine ⟨c, s, rfl, beginsValue_of_startsNumber hc, bracket?_of_startsNumber hc, ?_⟩
    intro t ht
    obtain ⟨n, hn⟩ := hscans t ht
    exact passes_skipScalar_numeral hc hn
  | @string s h =>
    refine ⟨'"', s ++ ['"'], rfl, by decide, rfl, ?_⟩
    intro t _
    rw [List.append_assoc]
    exact h.passes t

/-- A truth value is read by its first letter. -/
theorem exists_scans_bool (b : Bool) :
    ∃ c s, (toString b).toList = c :: s ∧ isBlank c = false ∧ bracket? c = none ∧
      ∀ t, Scans (scalar c) (s ++ t) (.bool b) t := by
  cases b with
  | true =>
    refine ⟨'t', ['r', 'u', 'e'], rfl, rfl, rfl, fun t => ?_⟩
    obtain ⟨h, hword⟩ := passes_word ['r', 'u', 'e'] t
    refine ⟨h, ?_⟩
    rw [scalar, if_neg (by decide), if_pos rfl, hword]
    rfl
  | false =>
    refine ⟨'f', ['a', 'l', 's', 'e'], rfl, rfl, rfl, fun t => ?_⟩
    obtain ⟨h, hword⟩ := passes_word ['a', 'l', 's', 'e'] t
    refine ⟨h, ?_⟩
    rw [scalar, if_neg (by decide), if_neg (by decide), if_pos rfl, hword]
    rfl

/-! ## Plain decimal numbers -/

/-- Only zero is written with a zero in front. -/
theorem zero_notMem_head?_toDigits {n : Nat} (hn : n ≠ 0) : '0' ∉ (Nat.toDigits 10 n).head? := by
  induction n using Nat.strongRecOn with
  | ind n ih =>
    rcases Nat.lt_or_ge n 10 with hlt | hge
    · rw [Nat.toDigits_of_lt_base hlt]
      intro h
      exact hn (Nat.digitChar_eq_zero.1 (Option.some.inj h))
    · obtain ⟨c, ds, hcons⟩ := List.exists_cons_of_ne_nil (Nat.toDigits_ne_nil (n := n / 10) (b := 10))
      have hfront := ih (n / 10) (by omega) (by omega)
      rw [Nat.toDigits_of_base_le (by decide) hge]
      rw [hcons] at hfront ⊢
      exact hfront

theorem wholeText_toDigits (n : Nat) : WholeText (Nat.toDigits 10 n) := by
  rcases Nat.eq_zero_or_pos n with rfl | hn
  · exact .inl rfl
  · exact .inr ⟨⟨Nat.toDigits_ne_nil, fun c hc => Nat.isDigit_of_mem_toDigits (by decide) (by decide) hc⟩,
      zero_notMem_head?_toDigits (Nat.ne_of_gt hn)⟩

theorem ofDigits_toDigits (n : Nat) : ofDigits ((Nat.toDigits 10 n).map digitValue) = n := by
  have h := Nat.ofDigitChars_ten_toDigits (n := n)
  rw [Nat.ofDigitChars_eq_foldl] at h
  rw [ofDigits, List.foldl_map]
  exact h

/-- A natural number of one word, in decimal, is read by its first digit. -/
theorem exists_scans_natural {n : Nat} (hn : n < UInt64.size) :
    ∃ c s, (toString n).toList = c :: s ∧ isBlank c = false ∧ bracket? c = none ∧
      ∀ t, Ends t → Scans (scalar c) (s ++ t) (.natural n) t := by
  have hwhole := wholeText_toDigits n
  obtain ⟨c, ds, hcons, hc⟩ := hwhole.exists_cons
  have hnumber : startsNumber c = true := by simp [startsNumber, hc]
  refine ⟨c, ds, ?_, isBlank_of_startsNumber hnumber, bracket?_of_startsNumber hnumber, ?_⟩
  · rw [Nat.toString_eq_ofList_toDigits, String.toList_ofList, hcons]
  intro t ht
  have hvalue : ofDigits ((c :: ds).map digitValue) = n := by rw [← hcons, ofDigits_toDigits]
  obtain ⟨h, hscan⟩ := scans_unsignedNumeral (scans_wholePart (hcons ▸ hwhole) ht.noDigit)
    (scans_fractionPart_none fun hdot => absurd (ht '.' hdot) (by decide))
    (scans_exponentPart_none (fun he => absurd (ht 'e' he) (by decide))
      fun he => absurd (ht 'E' he) (by decide)) false
  have hminus : c ≠ '-' := by
    rintro rfl
    cases hc
  have hnumeral : numeral c (ds ++ t) = unsignedNumeral false c (ds ++ t) := by
    unfold numeral
    exact if_neg hminus
  refine ⟨h, ?_⟩
  rw [scalar, if_neg (ne_of_startsNumber hnumber rfl), if_neg (ne_of_startsNumber hnumber rfl),
    if_neg (ne_of_startsNumber hnumber rfl), if_neg (ne_of_startsNumber hnumber rfl), if_pos hnumber,
    hnumeral, hscan]
  simp only [bind, Except.bind, Numeral.toScalar, Numeral.natural?, hvalue, hn, and_self, if_true]
  rfl

end PackedLogic.Json
