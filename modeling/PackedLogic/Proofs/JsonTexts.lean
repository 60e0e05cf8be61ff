import PackedLogic.Json.Skip
set_option autoImplicit false

/-!
# Texts of values

The strict grammar of values, given as relations on texts that mention no reader.  A value is a scalar
or a bracket around items, which are values with a key in front of each if the brackets are curly.
Between tokens there may be blanks.  `StringText` is what may stand between quotes at all;
`Spells` says besides which characters it stands for, and has no place for half a pair of surrogates.
An object whose keys are spelled out is an `ObjectText`.
-/

namespace PackedLogic.Json

/-- Characters without meaning, as many as one likes. -/
def Blanks (s : List Char) : Prop := ∀ c ∈ s, c ∈ [' ', '\t', '\n', '\r']

instance (s : List Char) : Decidable (Blanks s) := List.decidableBAll _ s

/-! ## Numerals -/

/-- One digit or more. -/
def DigitsText (s : List Char) : Prop := s ≠ [] ∧ ∀ c ∈ s, c.isDigit = true

instance (s : List Char) : Decidable (DigitsText s) :=
  @instDecidableAnd _ _ inferInstance (List.decidableBAll _ s)

/-- The digits before the point: a zero stands alone. -/
def WholeText (s : List Char) : Prop := s = ['0'] ∨ (DigitsText s ∧ '0' ∉ s.head?)

instance (s : List Char) : Decidable (WholeText s) := inferInstanceAs (Decidable (_ ∨ _))

/-- Nothing, or a point and digits. -/
def FractionText (s : List Char) : Prop := s = [] ∨ ∃ ds, DigitsText ds ∧ s = '.' :: ds

/-- Nothing, or the letter for the exponent, perhaps a sign, and digits. -/
def ExponentText (s : List Char) : Prop :=
  s = [] ∨ ∃ e ∈ ['e', 'E'], ∃ sign ∈ [[], ['+'], ['-']], ∃ ds, DigitsText ds ∧ s = e :: (sign ++ ds)

/-- A number: perhaps a sign, digits, a fraction and an exponent. -/
inductive NumeralText : List Char → Prop
  | mk {sign whole fraction exponent : List Char} (hsign : sign = [] ∨ sign = ['-'])
      (hwhole : WholeText whole) (hfraction : FractionText fraction)
      (hexponent : ExponentText exponent) :
      NumeralText (sign ++ (whole ++ (fraction ++ exponent)))

/-! ## Strings -/

/-- A character that stands for itself between quotes. -/
def Plain (c : Char) : Prop := ' ' ≤ c ∧ c ≠ '"' ∧ c ≠ '\\'

instance (c : Char) : Decidable (Plain c) := inferInstanceAs (Decidable (_ ∧ _ ∧ _))

/-- The letters that may follow a backslash, and what they stand for there. -/
def escapes : List (Char × Char) :=
  [('"', '"'), ('\\', '\\'), ('/', '/'), ('b', '\x08'), ('f', '\x0c'), ('n', '\n'), ('r', '\r'),
    ('t', '\t')]

/-- A hexadecimal digit, small or capital, and its value. -/
def HexDigit (c : Char) (n : Nat) : Prop :=
  "0123456789abcdef".toList[n]? = some c ∨ "0123456789ABCDEF".toList[n]? = some c

/-- Four hexadecimal digits and the code unit that they denote. -/
inductive CodeUnitText : List Char → Nat → Prop
  | mk {a b c d : Char} {k l m n : Nat} (ha : HexDigit a k) (hb : HexDigit b l)
      (hc : HexDigit c m) (hd : HexDigit d n) :
      CodeUnitText [a, b, c, d] (((k * 16 + l) * 16 + m) * 16 + n)

/-- What may stand between quotes.  An escape may denote any code unit. -/
inductive StringText : List Char → Prop
  | nil : StringText []
  | plain {c : Char} {s : List Char} (hc : Plain c) (h : StringText s) : StringText (c :: s)
  | letter {e c : Char} {s : List Char} (he : (e, c) ∈ escapes) (h : StringText s) :
      StringText ('\\' :: e :: s)
  | unit {u s : List Char} {n : Nat} (hu : CodeUnitText u n) (h : StringText s) :
      StringText ('\\' :: 'u' :: (u ++ s))

/-- The text between quotes stands for these characters.  Code units that are surrogates stand in
pairs, the high one first, and a pair denotes one character. -/
inductive Spells : List Char → List Char → Prop
  | nil : Spells [] []
  | plain {c : Char} {s t : List Char} (hc : Plain c) (h : Spells s t) : Spells (c :: s) (c :: t)
  | letter {e c : Char} {s t : List Char} (he : (e, c) ∈ escapes) (h : Spells s t) :
      Spells ('\\' :: e :: s) (c :: t)
  | unit {c : Char} {u s t : List Char} (hu : CodeUnitText u c.toNat) (h : Spells s t) :
      Spells ('\\' :: 'u' :: (u ++ s)) (c :: t)
  | pair {c : Char} {u v s t : List Char} {high low : Nat} (hu : CodeUnitText u high)
      (hhigh : 0xD800 ≤ high ∧ high < 0xDC00) (hv : CodeUnitText v low)
      (hlow : 0xDC00 ≤ low ∧ low < 0xE000)
      (hc : c.toNat = 0x10000 + 0x400 * (high - 0xD800) + (low - 0xDC00)) (h : Spells s t) :
      Spells ('\\' :: 'u' :: (u ++ '\\' :: 'u' :: (v ++ s))) (c :: t)

/-! ## Values -/

/-- A value without brackets. -/
inductive ScalarText : List Char → Prop
  | word {s : List Char} (h : s ∈ ["null".toList, "true".toList, "false".toList]) : ScalarText s
  | numeral {s : List Char} (h : NumeralText s) : ScalarText s
  | string {s : List Char} (h : StringText s) : ScalarText ('"' :: (s ++ ['"']))

/-- The character that opens a bracket. -/
def Bracket.opening : Bracket → Char
  | square => '['
  | curly => '{'

/-- What precedes a value inside a bracket: a key and a colon, or nothing. -/
inductive HeadText : Bracket → List Char → Prop
  | square : HeadText .square []
  | curly {b b' key : List Char} (hb : Blanks b) (hkey : StringText key) (hb' : Blanks b') :
      HeadText .curly (b ++ '"' :: (key ++ '"' :: (b' ++ [':'])))

mutual

/-- A value, without blanks around it. -/
inductive ValueText : List Char → Prop
  | scalar {s : List Char} (h : ScalarText s) : ValueText s
  | empty (k : Bracket) {b : List Char} (hb : Blanks b) :
      ValueText (k.opening :: (b ++ [k.closing]))
  | filled {k : Bracket} {s : List Char} (h : ItemsText k s) :
      ValueText (k.opening :: (s ++ [k.closing]))

/-- The items inside a bracket, one or more, with commas between them. -/
inductive ItemsText : Bracket → List Char → Prop
  | last {k : Bracket} {head b v b' : List Char} (hhead : HeadText k head) (hb : Blanks b)
      (hv : ValueText v) (hb' : Blanks b') : ItemsText k (head ++ (b ++ (v ++ b')))
  | cons {k : Bracket} {head b v b' s : List Char} (hhead : HeadText k head) (hb : Blanks b)
      (hv : ValueText v) (hb' : Blanks b') (h : ItemsText k s) :
      ItemsText k (head ++ (b ++ (v ++ (b' ++ ',' :: s))))

end

/-! ## Objects with their keys -/

/-- The members of an object, one or more: the keys that they spell and the texts of their values. -/
inductive MembersText : List (String × List Char) → List Char → Prop
  | last {b₁ b₂ b₃ b₄ s key v : List Char} (hb₁ : Blanks b₁) (hkey : Spells s key) (hb₂ : Blanks b₂)
      (hb₃ : Blanks b₃) (hb₄ : Blanks b₄) :
      MembersText [(String.ofList key, v)]
        (b₁ ++ '"' :: (s ++ '"' :: (b₂ ++ ':' :: (b₃ ++ (v ++ b₄)))))
  | cons {b₁ b₂ b₃ b₄ s key v t : List Char} {ms : List (String × List Char)} (hb₁ : Blanks b₁)
      (hkey : Spells s key) (hb₂ : Blanks b₂) (hb₃ : Blanks b₃) (hb₄ : Blanks b₄)
      (h : MembersText ms t) :
      MembersText ((String.ofList key, v) :: ms)
        (b₁ ++ '"' :: (s ++ '"' :: (b₂ ++ ':' :: (b₃ ++ (v ++ (b₄ ++ ',' :: t))))))

/-- An object: the keys of its members, spelled out, and the texts of their values, in order. -/
inductive ObjectText : List (String × List Char) → List Char → Prop
  | empty {b : List Char} (hb : Blanks b) : ObjectText [] ('{' :: (b ++ ['}']))
  | filled {ms : List (String × List Char)} {s : List Char} (h : MembersText ms s) :
      ObjectText ms ('{' :: (s ++ ['}']))

/-- Characters that stand for themselves spell themselves. -/
theorem spells_self {s : List Char} (h : s.all (fun c => Plain c) = true) : Spells s s := by
  induction s with
  | nil => exact .nil
  | cons c s ih =>
    rw [List.all_cons, Bool.and_eq_true, decide_eq_true_eq] at h
    exact .plain h.1 (ih h.2)

/-! ## What comes next -/

/-- A value may end before this text: here is the end, a blank, a comma or a closing bracket. -/
def Ends (s : List Char) : Prop := ∀ c ∈ s.head?, c ∈ [' ', '\t', '\n', '\r', ',', ']', '}']

theorem Blanks.head {c : Char} {b : List Char} (h : Blanks (c :: b)) : isBlank c = true := by
  have hc := h c List.mem_cons_self
  simp only [List.mem_cons, List.not_mem_nil, or_false] at hc
  rcases hc with rfl | rfl | rfl | rfl <;> rfl

theorem Blanks.tail {c : Char} {b : List Char} (h : Blanks (c :: b)) : Blanks b :=
  fun d hd => h d (List.mem_cons_of_mem c hd)

theorem ends_nil : Ends [] := nofun

theorem ends_cons {c : Char} (h : c ∈ [',', ']', '}']) (s : List Char) : Ends (c :: s) := by
  intro d hd
  obtain rfl : c = d := Option.some.inj hd
  simp only [List.mem_cons, List.not_mem_nil, or_false] at h ⊢
  rcases h with rfl | rfl | rfl <;> simp

/-- Blanks before an end are an end. -/
theorem Ends.blanks_append {b s : List Char} (h : Ends s) (hb : Blanks b) : Ends (b ++ s) := by
  cases b with
  | nil => exact h
  | cons c b =>
    intro d hd
    obtain rfl : c = d := Option.some.inj hd
    have hc := hb c List.mem_cons_self
    simp only [List.mem_cons, List.not_mem_nil, or_false] at hc ⊢
    rcases hc with rfl | rfl | rfl | rfl <;> simp

end PackedLogic.Json
