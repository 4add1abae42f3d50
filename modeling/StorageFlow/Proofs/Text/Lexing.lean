import StorageFlow.Syntax.Text

/-!
# StorageFlow.Proofs.Text.Lexing

The tokens of a written text.

* `Keyword`, `Mark`, `Token` — the units that written forms consist of.
* `lex` — cuts a text into tokens. Blanks separate words and leave no trace.
* `Text.isName`, `Text.isNumeral` — texts that are lexed as one name, or as one number.
* `Lexes`, `Delimited` — the tokens of a text that stands in front of another one: of any other, or
  of one that does not go on with the last word.
* `Lexes.append`, `Lexes.append_delimited`, `Lexes.commaSeparated` — the tokens of composed texts.
-/

namespace StorageFlow

/-! ### Tokens -/

/-- The words that start a statement or a case. -/
inductive Keyword
  | declare | branch | switch | case | default | loop | function | breakLoop | continueLoop
  deriving DecidableEq

namespace Keyword

/-- The written form. -/
def text : Keyword → String
  | declare => "let"
  | branch => "if"
  | switch => "switch"
  | case => "case"
  | default => "default"
  | loop => "for"
  | function => "function"
  | breakLoop => "break"
  | continueLoop => "continue"

/-- Every keyword. -/
def all : List Keyword :=
  [declare, branch, switch, case, default, loop, function, breakLoop, continueLoop]

/-- The keyword that is written as `text`. -/
def ofText? (text : String) : Option Keyword :=
  all.find? fun keyword => keyword.text == text

theorem ofText?_text (keyword : Keyword) : ofText? keyword.text = some keyword := by
  cases keyword <;> rfl

end Keyword

/-- The characters that are tokens of their own. -/
inductive Mark
  | openParen | closeParen | openBrace | closeBrace | comma | colon | equals | dash | less | greater
  deriving DecidableEq

namespace Mark

/-- The written form. -/
def char : Mark → Char
  | openParen => '('
  | closeParen => ')'
  | openBrace => '\x7b'
  | closeBrace => '\x7d'
  | comma => ','
  | colon => ':'
  | equals => '='
  | dash => '-'
  | less => '<'
  | greater => '>'

/-- Every mark. -/
def all : List Mark :=
  [openParen, closeParen, openBrace, closeBrace, comma, colon, equals, dash, less, greater]

/-- The mark that is written as `c`. -/
def ofChar? (c : Char) : Option Mark :=
  all.find? fun mark => mark.char == c

end Mark

/-- A unit of a written form. -/
inductive Token
  | keyword (keyword : Keyword)
  | name (name : Name)
  | literal (kind : Literal.Kind) (text : String)
  | mark (mark : Mark)
  deriving DecidableEq

namespace Text

/-- The words that are not names. -/
def reserved : List String :=
  Keyword.all.map Keyword.text ++ ["true", "false"]

/-- Whether the character is none of ASCII. It may be a letter or a digit of some script. -/
def isBeyondAscii (c : Char) : Bool :=
  0x80 ≤ c.toNat

/-- The characters of words. -/
def isWordChar (c : Char) : Bool :=
  c.isAlphanum || c == '_' || isBeyondAscii c

/-- The characters that a name may start with. -/
def startsName (c : Char) : Bool :=
  c.isAlpha || c == '_'

/-- The characters that a number may start with. -/
def startsNumeral (c : Char) : Bool :=
  c.isDigit || isBeyondAscii c

/-- Whether the text consists of letters, digits and underscores, does not start with a digit, and
is not a reserved word. -/
def isName (text : String) : Bool :=
  text.toList.head?.any startsName && text.toList.all (fun c => c.isAlphanum || c == '_') &&
    !reserved.contains text

/-- Whether the text consists of letters and digits and starts with a digit. Any characters beyond
ASCII may stand for letters and digits of other scripts. -/
def isNumeral (text : String) : Bool :=
  text.toList.head?.any startsNumeral && text.toList.all fun c => c.isAlphanum || isBeyondAscii c

/-- Whether the text is one of the two boolean values. -/
def isBoolean (text : String) : Bool :=
  text == "true" || text == "false"

/-- Whether the text can stand between quotes that end where it ends. -/
def isQuotable (text : String) : Bool :=
  !text.toList.contains '"'

end Text

open Text

/-- The token that a word is. -/
def Token.ofWord (word : String) : Token :=
  match Keyword.ofText? word with
  | some k => .keyword k
  | none =>
    if isBoolean word then .literal .boolean word
    else if word.toList.head?.any startsNumeral then .literal .number word
    else .name word

/-- The tokens of a text: words, texts in quotes and marks. Anything else separates tokens. -/
def lex : List Char → List Token
  | [] => []
  | c :: cs =>
    if isWordChar c then
      .ofWord (String.ofList (c :: cs.takeWhile isWordChar)) :: lex (cs.dropWhile isWordChar)
    else if c = '"' then
      .literal .string (String.ofList (cs.takeWhile (· ≠ '"'))) ::
        lex (cs.dropWhile (· ≠ '"')).tail
    else
      (Mark.ofChar? c).toList.map .mark ++ lex cs
termination_by text => text.length
decreasing_by
  · have := (List.dropWhile_suffix isWordChar (l := cs)).length_le
    simp only [List.length_cons]
    omega
  · have := (List.dropWhile_suffix (· ≠ '"') (l := cs)).length_le
    simp only [List.length_tail, List.length_cons]
    omega
  · simp

/-! ### Words -/

/-- The text is a word. -/
def IsWord (word : String) : Prop :=
  word.toList ≠ [] ∧ ∀ c ∈ word.toList, isWordChar c = true

/-- The text does not go on with a word in front of it. -/
def Apart (text : List Char) : Prop :=
  ∀ c ∈ text.head?, isWordChar c = false

theorem Apart.takeWhile_append {word text : List Char} (h : Apart text)
    (hword : ∀ c ∈ word, isWordChar c = true) :
    (word ++ text).takeWhile isWordChar = word ∧ (word ++ text).dropWhile isWordChar = text := by
  rw [List.takeWhile_append_of_pos hword, List.dropWhile_append_of_pos hword]
  cases text with
  | nil => simp
  | cons c text =>
      have hc : isWordChar c = false := h c rfl
      simp [hc]

theorem lex_word {word : String} (hword : IsWord word) {rest : List Char} (hrest : Apart rest) :
    lex (word.toList ++ rest) = .ofWord word :: lex rest := by
  obtain ⟨hne, hchars⟩ := hword
  obtain ⟨c, cs, hcs⟩ := List.exists_cons_of_ne_nil hne
  rw [hcs, List.forall_mem_cons] at hchars
  obtain ⟨htake, hdrop⟩ := hrest.takeWhile_append hchars.2
  rw [hcs, List.cons_append, lex, if_pos hchars.1, htake, hdrop, ← hcs, String.ofList_toList]

namespace Text

variable {text : String}

theorem ne_nil_of_head?_any {p : Char → Bool} {cs : List Char} (h : cs.head?.any p = true) :
    cs ≠ [] := by
  rintro rfl
  cases h

theorem isWord_of_isName (h : isName text = true) : IsWord text := by
  simp only [isName, Bool.and_eq_true, List.all_eq_true] at h
  refine ⟨ne_nil_of_head?_any h.1.1, fun c hc => ?_⟩
  rw [isWordChar, h.1.2 c hc, Bool.true_or]

theorem isWord_of_isNumeral (h : isNumeral text = true) : IsWord text := by
  simp only [isNumeral, Bool.and_eq_true, List.all_eq_true] at h
  refine ⟨ne_nil_of_head?_any h.1, fun c hc => ?_⟩
  rw [isWordChar, Bool.or_right_comm, h.2 c hc, Bool.true_or]

theorem eq_of_isBoolean (h : isBoolean text = true) : text = "true" ∨ text = "false" := by
  simpa [isBoolean] using h

theorem isWord_of_isBoolean (h : isBoolean text = true) : IsWord text := by
  rcases eq_of_isBoolean h with rfl | rfl <;>
    exact ⟨by decide, List.all_eq_true.1 (by decide)⟩

theorem isWord_keyword (k : Keyword) : IsWord k.text := by
  cases k <;> exact ⟨by decide, List.all_eq_true.1 (by decide)⟩

/-- No character starts both names and numbers. -/
theorem startsNumeral_of_startsName {c : Char} (h : startsName c = true) :
    startsNumeral c = false := by
  rcases (by simpa [startsName] using h : c.isAlpha = true ∨ c = '_') with hletter | rfl
  · have hupper : c.isUpper = decide (65 ≤ c.toNat ∧ c.toNat ≤ 90) := rfl
    have hlower : c.isLower = (decide (97 ≤ c.toNat) && decide (c.toNat ≤ 122)) := rfl
    have hdigit : c.isDigit = (decide (48 ≤ c.toNat) && decide (c.toNat ≤ 57)) := rfl
    have hcases : c.isUpper = true ∨ c.isLower = true := Bool.or_eq_true_iff.1 hletter
    simp only [hupper, hlower, Bool.and_eq_true, decide_eq_true_eq] at hcases
    simp only [startsNumeral, isBeyondAscii, hdigit, Bool.or_eq_false_iff, Bool.and_eq_false_iff,
      decide_eq_false_iff_not]
    omega
  · decide

end Text

/-! ### The tokens that words are -/

namespace Token

variable {text : String}

theorem ofWord_of_not_reserved (h : text ∉ reserved) :
    ofWord text =
      if text.toList.head?.any startsNumeral then .literal .number text else .name text := by
  have hkeyword : Keyword.ofText? text = none := by
    refine List.find?_eq_none.2 fun k hk hsame => h ?_
    rw [← beq_iff_eq.1 hsame]
    exact List.mem_append_left _ (List.mem_map_of_mem hk)
  have hboolean : isBoolean text = false := by
    refine Bool.eq_false_iff.2 fun hboolean => h ?_
    rcases eq_of_isBoolean hboolean with rfl | rfl <;> decide
  simp only [ofWord, hkeyword, hboolean, Bool.false_eq_true, if_false]

theorem ofWord_of_isName (h : isName text = true) : ofWord text = .name text := by
  simp only [isName, Bool.and_eq_true, Bool.not_eq_true', List.contains_eq_mem,
    decide_eq_false_iff_not] at h
  obtain ⟨⟨hstarts, -⟩, hreserved⟩ := h
  have hnumeral : ¬ text.toList.head?.any startsNumeral = true := by
    obtain ⟨c, hc, hstarts⟩ := (Option.any_eq_true _ _).1 hstarts
    simp [hc, startsNumeral_of_startsName hstarts]
  rw [ofWord_of_not_reserved hreserved, if_neg hnumeral]

theorem ofWord_of_isNumeral (h : isNumeral text = true) :
    ofWord text = .literal .number text := by
  have hstarts := (Bool.and_eq_true_iff.1 h).1
  have hreserved : text ∉ reserved := by
    intro hmem
    have hletter : ∀ word ∈ reserved, word.toList.head?.any startsNumeral = false := by decide
    rw [hletter text hmem] at hstarts
    cases hstarts
  rw [ofWord_of_not_reserved hreserved, if_pos hstarts]

theorem ofWord_of_isBoolean (h : isBoolean text = true) :
    ofWord text = .literal .boolean text := by
  rcases eq_of_isBoolean h with rfl | rfl <;> rfl

theorem ofWord_keyword (k : Keyword) : ofWord k.text = .keyword k := by
  rw [ofWord, Keyword.ofText?_text]

end Token

/-! ### Texts in front of others -/

/-- The text consists of the tokens wherever no word goes on behind it. -/
def Lexes (text : String) (tokens : List Token) : Prop :=
  ∀ rest, Apart rest → lex (text.toList ++ rest) = tokens ++ lex rest

/-- The text consists of the tokens whatever goes on behind it. -/
def Delimited (text : String) (tokens : List Token) : Prop :=
  ∀ rest, lex (text.toList ++ rest) = tokens ++ lex rest

variable {text more : String} {tokens others : List Token}

theorem Delimited.lexes (h : Delimited text tokens) : Lexes text tokens :=
  fun rest _ => h rest

theorem Delimited.append (htext : Delimited text tokens) (hmore : Delimited more others) :
    Delimited (text ++ more) (tokens ++ others) := by
  intro rest
  rw [String.toList_append, List.append_assoc, htext, hmore, List.append_assoc]

theorem Delimited.append_lexes (htext : Delimited text tokens) (hmore : Lexes more others) :
    Lexes (text ++ more) (tokens ++ others) := by
  intro rest hrest
  rw [String.toList_append, List.append_assoc, htext, hmore rest hrest, List.append_assoc]

theorem Apart.append {text rest : List Char} (htext : Apart text) (hrest : Apart rest) :
    Apart (text ++ rest) := by
  cases text with
  | nil => exact hrest
  | cons c text => exact htext

/-- Texts are lexed one after another where the second one does not go on with the last word of
the first. -/
theorem Lexes.append (htext : Lexes text tokens) (hmore : Lexes more others)
    (hapart : Apart more.toList) : Lexes (text ++ more) (tokens ++ others) := by
  intro rest hrest
  rw [String.toList_append, List.append_assoc, htext _ (hapart.append hrest), hmore rest hrest,
    List.append_assoc]

/-! ### Words -/

theorem Lexes.word {token : Token} (hword : IsWord text) (htoken : Token.ofWord text = token) :
    Lexes text [token] := by
  intro rest hrest
  rw [lex_word hword hrest, htoken, List.singleton_append]

theorem Lexes.name {name : Name} (h : isName name = true) : Lexes name [.name name] :=
  .word (isWord_of_isName h) (Token.ofWord_of_isName h)

theorem Lexes.numeral (h : isNumeral text = true) : Lexes text [.literal .number text] :=
  .word (isWord_of_isNumeral h) (Token.ofWord_of_isNumeral h)

theorem Lexes.boolean (h : isBoolean text = true) : Lexes text [.literal .boolean text] :=
  .word (isWord_of_isBoolean h) (Token.ofWord_of_isBoolean h)

theorem Lexes.keyword (k : Keyword) : Lexes k.text [.keyword k] :=
  .word (isWord_keyword k) (Token.ofWord_keyword k)

/-! ### Separators and quotes -/

/-- Whether the text is not empty and has no characters of words, and no quotes. -/
def isSeparator (text : String) : Bool :=
  !text.toList.isEmpty && text.toList.all fun c => !isWordChar c && c != '"'

/-- The marks of a separator. -/
def marksOf (text : String) : List Token :=
  (text.toList.filterMap Mark.ofChar?).map .mark

theorem Delimited.separator (text : String) (h : isSeparator text = true) :
    Delimited text (marksOf text) := by
  intro rest
  have hchars := (Bool.and_eq_true_iff.1 h).2
  unfold marksOf
  generalize text.toList = cs at hchars
  induction cs with
  | nil => rfl
  | cons c cs ih =>
      simp only [List.all_cons, Bool.and_eq_true, Bool.not_eq_true', bne_iff_ne, ne_eq] at hchars
      obtain ⟨⟨hword, hquote⟩, hchars⟩ := hchars
      rw [List.cons_append, lex, hword, if_neg hquote, ih hchars]
      -- The character is a mark, or it leaves no trace.
      cases hmark : Mark.ofChar? c <;> simp [hmark]

theorem apart_of_isSeparator (h : isSeparator text = true) (rest : List Char) :
    Apart (text.toList ++ rest) := by
  simp only [isSeparator, Bool.and_eq_true, List.all_eq_true, Bool.not_eq_true',
    List.isEmpty_eq_false_iff] at h
  obtain ⟨c, cs, hcs⟩ := List.exists_cons_of_ne_nil h.1
  have hc := (h.2 c (by simp [hcs])).1
  simpa [Apart, hcs] using hc

/-- A separator ends whatever it stands behind. -/
theorem Lexes.separated (htext : Lexes text tokens) (more : String)
    (h : isSeparator more = true) : Delimited (text ++ more) (tokens ++ marksOf more) := by
  intro rest
  rw [String.toList_append, List.append_assoc, htext _ (apart_of_isSeparator h rest),
    Delimited.separator more h rest, List.append_assoc]

theorem Delimited.blank : Delimited " " [] :=
  .separator " " (by decide)

theorem Lexes.append_blank (htext : Lexes text tokens) : Delimited (text ++ " ") tokens := by
  have h := htext.separated " " (by decide)
  rwa [show marksOf " " = [] from rfl, List.append_nil] at h

theorem apart_blank (text : String) : Apart (" " ++ text).toList := by
  rw [String.toList_append]
  exact apart_of_isSeparator (by decide) _

theorem Delimited.keyword (k : Keyword) : Delimited (k.text ++ " ") [.keyword k] :=
  (Lexes.keyword k).append_blank

theorem Delimited.quoted (h : isQuotable text = true) :
    Delimited ("\"" ++ text ++ "\"") [.literal .string text] := by
  intro rest
  have hchars : ∀ c ∈ text.toList, decide (c ≠ '"') = true := by
    intro c hc
    refine decide_eq_true fun hquote => ?_
    subst hquote
    simp [isQuotable, hc] at h
  have hquote : isWordChar '"' = false := by decide
  have hopen : ("\"" ++ text ++ "\"").toList ++ rest = '"' :: (text.toList ++ '"' :: rest) := by
    simp
  rw [hopen, lex, hquote, List.takeWhile_append_of_pos hchars, List.dropWhile_append_of_pos hchars]
  simp

/-! ### Lists -/

/-- The tokens of a list, a comma between those of neighbours. -/
def commaTokens (items : List (List Token)) : List Token :=
  [.mark .comma].intercalate items

@[simp] theorem commaTokens_nil : commaTokens [] = [] := rfl

@[simp] theorem commaTokens_singleton (item : List Token) : commaTokens [item] = item :=
  List.intercalate_singleton

@[simp] theorem commaTokens_cons_cons (item next : List Token) (items : List (List Token)) :
    commaTokens (item :: next :: items) =
      item ++ [.mark .comma] ++ commaTokens (next :: items) :=
  List.intercalate_cons_cons

theorem Lexes.commaSeparated {α : Type} {write : α → String} {cut : α → List Token}
    {items : List α} (h : ∀ item ∈ items, Lexes (write item) (cut item)) :
    Lexes (commaSeparated (items.map write)) (commaTokens (items.map cut)) := by
  induction items with
  | nil => exact fun _ _ => rfl
  | cons item items ih =>
      rw [List.forall_mem_cons] at h
      cases items with
      | nil => simpa [StorageFlow.commaSeparated] using h.1
      | cons next items =>
          rw [List.map_cons, List.map_cons, StorageFlow.commaSeparated, List.map_cons,
            List.map_cons, String.intercalate_cons_cons, commaTokens_cons_cons]
          -- The comma ends the last word in front of it, so the next item starts anew.
          exact (h.1.separated ", " (by decide)).append_lexes (ih h.2)

end StorageFlow
