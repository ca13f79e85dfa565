import Mathlib.Data.List.Basic
import Mathlib.Tactic.SplitIfs
import YangEvolution.Proofs.DigitText
import YangEvolution.Text.Json
import YangEvolution.Toml.Quotation

/-!
Reading JSON. A text is taken apart into marks, strings and words, and a machine with a stack of the
open brackets builds the value from these. All blanks, escapes and surrogate pairs are understood;
numbers are whole, as those of the values are. Main statement: the written form over several lines
of a value is read as that value.
-/

namespace YangEvolution.Text.Json

/-! ### Texts and their tokens -/

inductive Token where
  /-- A bracket, a brace, a colon or a comma. -/
  | mark (c : Char)
  /-- What stands between two quotes, with its escapes. -/
  | string (raw : List Char)
  /-- A name or a number. -/
  | word (cs : List Char)
  deriving DecidableEq

def isSpace (c : Char) : Bool :=
  [' ', '\t', '\n', '\r'].contains c

def isMark (c : Char) : Bool :=
  ['[', ']', '\x7b', '\x7d', ':', ','].contains c

/-- Where in a text a token may be; what was read of it is reversed. -/
inductive Place where
  | between
  | word (read : List Char)
  | string (read : List Char) (escaped : Bool)

/-- The tokens of a text from a place in it on. -/
def tokensFrom : Place → List Char → Option (List Token)
  | .between, [] => some []
  | .word read, [] => some [.word read.reverse]
  | .string _ _, [] => none
  | .between, c :: cs =>
    if isSpace c then tokensFrom .between cs
    else if isMark c then (tokensFrom .between cs).map fun ts => .mark c :: ts
    else if c = '"' then tokensFrom (.string [] false) cs
    else tokensFrom (.word [c]) cs
  | .word read, c :: cs =>
    if isSpace c then (tokensFrom .between cs).map fun ts => .word read.reverse :: ts
    else if isMark c then
      (tokensFrom .between cs).map fun ts => .word read.reverse :: .mark c :: ts
    else if c = '"' then none
    else tokensFrom (.word (c :: read)) cs
  | .string read true, c :: cs => tokensFrom (.string (c :: read) false) cs
  | .string read false, c :: cs =>
    if c = '"' then (tokensFrom .between cs).map fun ts => .string read.reverse :: ts
    else tokensFrom (.string (c :: read) (c == '\\')) cs

/-! ### Strings and scalars -/

/-- The character that an escape of one letter stands for. -/
def unescape? : Char → Option Char
  | '"' => some '"'
  | '\\' => some '\\'
  | '/' => some '/'
  | 'b' => some '\x08'
  | 'f' => some '\x0c'
  | 'n' => some '\n'
  | 'r' => some '\r'
  | 't' => some '\t'
  | _ => none

/-- The numbers of the characters of a string, where those written by four hexadecimal digits may be
surrogates. -/
def units : List Char → Option (List Nat)
  | [] => some []
  | '\\' :: 'u' :: a :: b :: c :: d :: rest => do
    let n ← Toml.hexNumber [a, b, c, d]
    (units rest).map fun ns => n :: ns
  | '\\' :: e :: rest => do
    let c ← unescape? e
    (units rest).map fun ns => c.toNat :: ns
  | c :: rest =>
    if c = '\\' || c.toNat < 0x20 then none else (units rest).map fun ns => c.toNat :: ns

/-- The characters of numbers, a pair of surrogates taken together. -/
def characters : List Nat → Option (List Char)
  | [] => some []
  | [n] => if n.isValidChar then some [Char.ofNat n] else none
  | n :: m :: rest =>
    if n.isValidChar then (characters (m :: rest)).map fun cs => Char.ofNat n :: cs
    else if 0xd800 ≤ n ∧ n < 0xdc00 ∧ 0xdc00 ≤ m ∧ m < 0xe000 then
      (characters rest).map fun cs =>
        Char.ofNat (0x10000 + 0x400 * (n - 0xd800) + (m - 0xdc00)) :: cs
    else none

/-- The string between two quotes. -/
def unquote (raw : List Char) : Option String :=
  ((units raw).bind characters).map String.ofList

/-- A whole number without needless zeros. -/
def readWhole (cs : List Char) : Option Nat :=
  if cs.head? = some '0' ∧ cs.length ≠ 1 then none else readNat cs

def readInteger : List Char → Option Int
  | '-' :: cs => (readWhole cs).map fun n : Nat => -(n : Int)
  | cs => (readWhole cs).map fun n : Nat => (n : Int)

def readWord (cs : List Char) : Option Json :=
  if cs = "null".toList then some .null
  else if cs = "true".toList then some (.bool true)
  else if cs = "false".toList then some (.bool false)
  else (readInteger cs).map .int

/-! ### Values from tokens -/

/-- An open bracket or brace with what was read behind it. -/
inductive Frame where
  | items (before : List Json)
  | field (before : List (String × Json)) (key : String)

/-- What comes next: a value, a key, the colon after a key, or whatever may follow a value. -/
inductive State where
  | value (outer : List Frame)
  | key (before : List (String × Json)) (outer : List Frame)
  | colon (before : List (String × Json)) (key : String) (outer : List Frame)
  | next (j : Json) (outer : List Frame)

/-- A bracket may be closed where a value is due only if nothing stands in it. -/
def stepValue (outer : List Frame) : Token → Option State
  | .string raw => (unquote raw).map fun s => .next (.str s) outer
  | .word cs => (readWord cs).map fun j => .next j outer
  | .mark '[' => some (.value (.items [] :: outer))
  | .mark '\x7b' => some (.key [] outer)
  | .mark ']' =>
    match outer with
    | .items [] :: outer => some (.next (.arr []) outer)
    | _ => none
  | .mark _ => none

def stepKey (before : List (String × Json)) (outer : List Frame) : Token → Option State
  | .string raw => (unquote raw).map fun key => .colon before key outer
  | .mark '\x7d' => if before.isEmpty then some (.next (.obj []) outer) else none
  | _ => none

def stepNext (j : Json) : List Frame → Token → Option State
  | .items before :: outer, .mark ',' => some (.value (.items (before ++ [j]) :: outer))
  | .items before :: outer, .mark ']' => some (.next (.arr (before ++ [j])) outer)
  | .field before key :: outer, .mark ',' => some (.key (before ++ [(key, j)]) outer)
  | .field before key :: outer, .mark '\x7d' => some (.next (.obj (before ++ [(key, j)])) outer)
  | _, _ => none

def step : State → Token → Option State
  | .value outer, t => stepValue outer t
  | .key before outer, t => stepKey before outer t
  | .colon before key outer, .mark ':' => some (.value (.field before key :: outer))
  | .colon _ _ _, _ => none
  | .next j outer, t => stepNext j outer t

/-- Reads a value from its tokens. -/
def ofTokens (ts : List Token) : Option Json :=
  match ts.foldlM step (.value []) with
  | some (.next j []) => some j
  | _ => none

/-- Reads a value from a text. -/
def read (s : String) : Option Json :=
  (tokensFrom .between s.toList).bind ofTokens

/-! ### The tokens of a value -/

mutual

def tokens : Json → List Token
  | .null => [.word "null".toList]
  | .bool true => [.word "true".toList]
  | .bool false => [.word "false".toList]
  | .int v => [.word (intText v).toList]
  | .str s => [.string (s.toList.flatMap escapeChar)]
  | .arr items => .mark '[' :: itemTokens items ++ [.mark ']']
  | .obj fields => .mark '\x7b' :: fieldTokens fields ++ [.mark '\x7d']

def itemTokens : List Json → List Token
  | [] => []
  | [j] => j.tokens
  | j :: k :: rest => j.tokens ++ .mark ',' :: itemTokens (k :: rest)

def fieldTokens : List (String × Json) → List Token
  | [] => []
  | [(key, j)] => .string (key.toList.flatMap escapeChar) :: .mark ':' :: j.tokens
  | (key, j) :: field :: rest =>
    .string (key.toList.flatMap escapeChar) :: .mark ':' :: j.tokens ++
      .mark ',' :: fieldTokens (field :: rest)

end

section Scanning

variable {c : Char} {cs rest read : List Char}

theorem tokensFrom_space (h : isSpace c = true) :
    tokensFrom .between (c :: cs) = tokensFrom .between cs := by
  rw [tokensFrom, if_pos h]

theorem tokensFrom_spaces (h : ∀ c ∈ cs, isSpace c = true) :
    tokensFrom .between (cs ++ rest) = tokensFrom .between rest := by
  induction cs with
  | nil => rfl
  | cons c cs ih =>
      obtain ⟨hc, hcs⟩ := List.forall_mem_cons.mp h
      rw [List.cons_append, tokensFrom_space hc, ih hcs]

theorem tokensFrom_lineBreak (indent : Nat) :
    tokensFrom .between (lineBreak indent ++ rest) = tokensFrom .between rest := by
  apply tokensFrom_spaces
  intro c hc
  rcases List.mem_cons.mp hc with rfl | hc
  · decide
  · rw [List.eq_of_mem_replicate hc]
    decide

theorem isSpace_of_isMark (h : isMark c = true) : isSpace c = false := by
  have hall : ['[', ']', '\x7b', '\x7d', ':', ','].all (fun c => !isSpace c) = true := by decide
  simpa using List.all_eq_true.mp hall c (List.contains_iff_mem.mp h)

theorem tokensFrom_mark (h : isMark c = true) :
    tokensFrom .between (c :: cs) = (tokensFrom .between cs).map fun ts => .mark c :: ts := by
  rw [tokensFrom, isSpace_of_isMark h, if_neg Bool.false_ne_true, if_pos h]

/-- A text that a word cannot go on in. -/
def EndsWord (rest : List Char) : Prop :=
  ∀ c, rest.head? = some c → isSpace c = true ∨ isMark c = true

theorem endsWord_mark (h : isMark c = true) : EndsWord (c :: cs) := by
  rintro x hx
  obtain rfl := Option.some.inj hx
  exact .inr h

theorem endsWord_lineBreak (indent : Nat) : EndsWord (lineBreak indent ++ rest) := by
  rintro x hx
  obtain rfl := Option.some.inj hx
  exact .inl (by decide)

/-- Whether a character may stand in a word. -/
def isPlain (c : Char) : Bool :=
  !isSpace c && !isMark c && c != '"'

theorem isPlain_iff : isPlain c = true ↔ isSpace c = false ∧ isMark c = false ∧ c ≠ '"' := by
  simp [isPlain, and_assoc]

theorem tokensFrom_word_append (hcs : cs.all isPlain = true) (hrest : EndsWord rest) :
    tokensFrom (.word read) (cs ++ rest) =
      (tokensFrom .between rest).map fun ts => .word (read.reverse ++ cs) :: ts := by
  induction cs generalizing read with
  | nil =>
      rw [List.nil_append, List.append_nil]
      cases rest with
      | nil => rfl
      | cons c rest =>
          rcases hrest c rfl with hspace | hmark
          · rw [tokensFrom_space hspace, tokensFrom, if_pos hspace]
          · rw [tokensFrom_mark hmark, tokensFrom, isSpace_of_isMark hmark,
              if_neg Bool.false_ne_true, if_pos hmark, Option.map_map]
            rfl
  | cons c cs ih =>
      rw [List.all_cons, Bool.and_eq_true, isPlain_iff] at hcs
      obtain ⟨⟨hspace, hmark, hquote⟩, hcs⟩ := hcs
      rw [List.cons_append, tokensFrom, hspace, if_neg Bool.false_ne_true, hmark,
        if_neg Bool.false_ne_true, if_neg hquote, ih hcs, List.reverse_cons, List.append_assoc,
        List.singleton_append]

theorem tokensFrom_word (hne : cs ≠ []) (hcs : cs.all isPlain = true) (hrest : EndsWord rest) :
    tokensFrom .between (cs ++ rest) =
      (tokensFrom .between rest).map fun ts => .word cs :: ts := by
  obtain ⟨c, cs, rfl⟩ := List.exists_cons_of_ne_nil hne
  rw [List.all_cons, Bool.and_eq_true, isPlain_iff] at hcs
  obtain ⟨⟨hspace, hmark, hquote⟩, hcs⟩ := hcs
  rw [List.cons_append, tokensFrom, hspace, if_neg Bool.false_ne_true, hmark,
    if_neg Bool.false_ne_true, if_neg hquote, tokensFrom_word_append hcs hrest]
  rfl

theorem tokensFrom_plain (hquote : c ≠ '"') (hback : c ≠ '\\') :
    tokensFrom (.string read false) (c :: cs) = tokensFrom (.string (c :: read) false) cs := by
  rw [tokensFrom, if_neg hquote, beq_eq_false_iff_ne.mpr hback]

theorem hexDigit_plain : ∀ n < 16, hexDigit n ≠ '"' ∧ hexDigit n ≠ '\\' := by
  decide

/-- No written character ends a string. -/
theorem tokensFrom_escapeChar (c : Char) :
    tokensFrom (.string read false) (escapeChar c ++ rest) =
      tokensFrom (.string ((escapeChar c).reverse ++ read) false) rest := by
  unfold escapeChar
  split_ifs with hquote hback hline htab hreturn hbackspace hfeed hcontrol
  · rfl
  · rfl
  · rfl
  · rfl
  · rfl
  · rfl
  · rfl
  · have hhigh := hexDigit_plain (c.toNat / 16) (by omega)
    have hlow := hexDigit_plain (c.toNat % 16) (by omega)
    show tokensFrom (.string ('0' :: '0' :: 'u' :: '\\' :: read) false)
      (hexDigit (c.toNat / 16) :: hexDigit (c.toNat % 16) :: rest) = _
    rw [tokensFrom_plain hhigh.1 hhigh.2, tokensFrom_plain hlow.1 hlow.2]
    rfl
  · exact tokensFrom_plain hquote hback

theorem tokensFrom_escaped (s : List Char) :
    tokensFrom (.string read false) (s.flatMap escapeChar ++ '"' :: rest) =
      (tokensFrom .between rest).map fun ts =>
        .string (read.reverse ++ s.flatMap escapeChar) :: ts := by
  induction s generalizing read with
  | nil => simp [tokensFrom]
  | cons c s ih =>
      rw [List.flatMap_cons, List.append_assoc, tokensFrom_escapeChar, ih, List.reverse_append,
        List.reverse_reverse, List.append_assoc]

theorem tokensFrom_quote (s : String) :
    tokensFrom .between (quote s ++ rest) =
      (tokensFrom .between rest).map fun ts => .string (s.toList.flatMap escapeChar) :: ts := by
  have hopen : tokensFrom .between ('"' :: (s.toList.flatMap escapeChar ++ '"' :: rest)) =
      tokensFrom (.string [] false) (s.toList.flatMap escapeChar ++ '"' :: rest) := rfl
  rw [quote, List.cons_append, List.cons_append, List.append_assoc, List.singleton_append, hopen,
    tokensFrom_escaped, List.reverse_nil, List.nil_append]

end Scanning

/-! ### Strings and scalars read back -/

section Scalars

variable {rest : List Char}

theorem hexNumber_hexDigit :
    ∀ n < 32, Toml.hexNumber ['0', '0', hexDigit (n / 16), hexDigit (n % 16)] = some n := by
  decide

theorem units_escapeChar (c : Char) :
    units (escapeChar c ++ rest) = (units rest).map fun ns => c.toNat :: ns := by
  unfold escapeChar
  split_ifs with hquote hback hline htab hreturn hbackspace hfeed hcontrol
  · rw [hquote]; rfl
  · rw [hback]; rfl
  · rw [hline]; rfl
  · rw [htab]; rfl
  · rw [hreturn]; rfl
  · rw [hbackspace]; rfl
  · rw [hfeed]; rfl
  · simp only [List.cons_append, List.nil_append, units, hexNumber_hexDigit c.toNat hcontrol]
    rfl
  · -- a character that is no backslash begins no escape, short or long
    rw [List.singleton_append, units]
    · simp [hback, hcontrol]
    · intros
      simp_all
    · intros
      simp_all

theorem units_escaped (s : List Char) :
    units (s.flatMap escapeChar) = some (s.map Char.toNat) := by
  induction s with
  | nil => rfl
  | cons c s ih => rw [List.flatMap_cons, units_escapeChar, ih, Option.map_some, List.map_cons]

theorem characters_toNat (s : List Char) : characters (s.map Char.toNat) = some s := by
  induction s with
  | nil => rfl
  | cons c s ih =>
      have hc : c.toNat.isValidChar := c.valid
      cases s with
      | nil =>
          rw [List.map_singleton, characters, if_pos hc, Char.ofNat_toNat]
      | cons d s =>
          rw [List.map_cons, List.map_cons, characters, if_pos hc, ← List.map_cons, ih,
            Option.map_some, Char.ofNat_toNat]

theorem unquote_escaped (s : String) : unquote (s.toList.flatMap escapeChar) = some s := by
  rw [unquote, units_escaped, Option.bind_some, characters_toNat, Option.map_some,
    String.ofList_toList]

/-- A number of several digits does not begin with a zero. -/
theorem length_of_head_natText {n : Nat} (h : (natText n).toList.head? = some '0') :
    (natText n).toList.length = 1 := by
  obtain ⟨ds, hds⟩ := List.head?_eq_some_iff.mp h
  have hdigits := digits_natText n
  rw [hds] at hdigits
  have hvalue : Nat.ofDigitChars 10 ds 0 = n := by
    have hcons := hdigits.value
    rw [ofDigitChars_cons_zero] at hcons
    simpa using hcons
  -- without the zero the digits stand for the same number, which has one digit more when written
  have hrest : Digits ds.length ds n :=
    ⟨rfl, fun c hc => hdigits.digit c (List.mem_cons_of_mem _ hc), hvalue⟩
  have hlength : (Nat.toDigits 10 n).length = ds.length + 1 := by
    rw [← List.length_cons, ← hds, natText, String.toList_ofList]
  rw [hds, List.length_cons]
  by_contra hne
  have hle := (Nat.length_toDigits_le_iff (by decide) (by omega)).mpr hrest.lt_pow
  omega

theorem readWhole_natText (n : Nat) : readWhole (natText n).toList = some n := by
  rw [readWhole, if_neg, readNat_natText]
  rintro ⟨hzero, hlength⟩
  exact hlength (length_of_head_natText hzero)

theorem readInteger_intText (v : Int) : readInteger (intText v).toList = some v := by
  by_cases hv : v < 0
  · rw [intText_of_neg hv, readInteger, readWhole_natText, Option.map_some]
    exact congrArg some (by omega)
  · rw [intText_of_nonneg hv]
    have hdigit := (digits_natText v.natAbs).digit
    unfold readInteger
    split
    · rename_i htext
      rw [htext] at hdigit
      exact absurd (hdigit '-' List.mem_cons_self) (by decide)
    · rw [readWhole_natText, Option.map_some]
      exact congrArg some (by omega)

theorem readWord_intText (v : Int) : readWord (intText v).toList = some (.int v) := by
  have hne : ∀ (w : List Char) (c : Char), c ∈ w → ¬ (c = '-' ∨ c.isDigit = true) →
      (intText v).toList ≠ w := by
    rintro w c hmem hc rfl
    exact hc (mem_intText hmem)
  rw [readWord, if_neg (hne _ 'n' (by decide) (by decide)),
    if_neg (hne _ 't' (by decide) (by decide)), if_neg (hne _ 'f' (by decide) (by decide)),
    readInteger_intText, Option.map_some]

theorem isPlain_of_isDigit {c : Char} (h : c.isDigit = true) : isPlain c = true := by
  have hall : [' ', '\t', '\n', '\r', '[', ']', '\x7b', '\x7d', ':', ',', '"'].all
      (fun c => !c.isDigit) = true := by decide
  have hne : ∀ x ∈ [' ', '\t', '\n', '\r', '[', ']', '\x7b', '\x7d', ':', ',', '"'], c ≠ x := by
    rintro x hx rfl
    simpa [h] using List.all_eq_true.mp hall c hx
  simp only [List.forall_mem_cons] at hne
  simp [isPlain, isSpace, isMark, hne]

theorem all_isPlain_intText (v : Int) : (intText v).toList.all isPlain = true := by
  rw [List.all_eq_true]
  intro c hc
  rcases mem_intText hc with rfl | hdigit
  · decide
  · exact isPlain_of_isDigit hdigit

end Scalars

/-! ### A written value and its tokens -/

mutual

theorem tokensFrom_pretty (indent : Nat) (rest : List Char) (hrest : EndsWord rest) :
    ∀ j : Json, tokensFrom .between (prettyChars indent j ++ rest) =
      (tokensFrom .between rest).map fun ts => j.tokens ++ ts
  | .null => by
    rw [prettyChars]
    exact tokensFrom_word (by decide) (by decide) hrest
  | .bool true => by
    rw [prettyChars]
    exact tokensFrom_word (by decide) (by decide) hrest
  | .bool false => by
    rw [prettyChars]
    exact tokensFrom_word (by decide) (by decide) hrest
  | .int v => by
    rw [prettyChars]
    exact tokensFrom_word (intText_ne_nil v) (all_isPlain_intText v) hrest
  | .str s => by
    rw [prettyChars]
    exact tokensFrom_quote s
  | .arr [] => by
    simp only [prettyChars, List.cons_append, List.nil_append]
    rw [tokensFrom_mark (by decide), tokensFrom_mark (by decide), Option.map_map]
    simp only [tokens, itemTokens]
    rfl
  | .arr (j :: items) => by
    simp only [prettyChars, List.cons_append, List.append_assoc, List.nil_append]
    rw [tokensFrom_mark (by decide), tokensFrom_prettyItems _ _ (endsWord_lineBreak _),
      tokensFrom_lineBreak, tokensFrom_mark (by decide), Option.map_map, Option.map_map]
    simp only [tokens, Function.comp_def, List.cons_append, List.append_assoc, List.nil_append]
  | .obj [] => by
    simp only [prettyChars, List.cons_append, List.nil_append]
    rw [tokensFrom_mark (by decide), tokensFrom_mark (by decide), Option.map_map]
    simp only [tokens, fieldTokens]
    rfl
  | .obj (field :: fields) => by
    simp only [prettyChars, List.cons_append, List.append_assoc, List.nil_append]
    rw [tokensFrom_mark (by decide), tokensFrom_prettyFields _ _ (endsWord_lineBreak _),
      tokensFrom_lineBreak, tokensFrom_mark (by decide), Option.map_map, Option.map_map]
    simp only [tokens, Function.comp_def, List.cons_append, List.append_assoc, List.nil_append]

theorem tokensFrom_prettyItems (indent : Nat) (rest : List Char) (hrest : EndsWord rest) :
    ∀ items : List Json, tokensFrom .between (prettyItems indent items ++ rest) =
      (tokensFrom .between rest).map fun ts => itemTokens items ++ ts
  | [] => by
    simp [prettyItems, itemTokens]
  | [j] => by
    rw [prettyItems, List.append_assoc, tokensFrom_lineBreak, tokensFrom_pretty _ _ hrest,
      itemTokens]
  | j :: k :: items => by
    simp only [prettyItems, List.append_assoc, List.cons_append]
    rw [tokensFrom_lineBreak, tokensFrom_pretty _ _ (endsWord_mark (by decide)),
      tokensFrom_mark (by decide), tokensFrom_prettyItems _ _ hrest, Option.map_map,
      Option.map_map]
    simp only [itemTokens, Function.comp_def, List.cons_append, List.append_assoc]

theorem tokensFrom_prettyFields (indent : Nat) (rest : List Char) (hrest : EndsWord rest) :
    ∀ fields : List (String × Json), tokensFrom .between (prettyFields indent fields ++ rest) =
      (tokensFrom .between rest).map fun ts => fieldTokens fields ++ ts
  | [] => by
    simp [prettyFields, fieldTokens]
  | [(key, j)] => by
    simp only [prettyFields, List.append_assoc, List.cons_append]
    rw [tokensFrom_lineBreak, tokensFrom_quote, tokensFrom_mark (by decide),
      tokensFrom_space (by decide), tokensFrom_pretty _ _ hrest, Option.map_map, Option.map_map]
    simp only [fieldTokens, Function.comp_def, List.cons_append]
  | (key, j) :: field :: fields => by
    simp only [prettyFields, List.append_assoc, List.cons_append]
    rw [tokensFrom_lineBreak, tokensFrom_quote, tokensFrom_mark (by decide),
      tokensFrom_space (by decide), tokensFrom_pretty _ _ (endsWord_mark (by decide)),
      tokensFrom_mark (by decide), tokensFrom_prettyFields _ _ hrest, Option.map_map,
      Option.map_map, Option.map_map, Option.map_map]
    simp only [fieldTokens, Function.comp_def, List.cons_append, List.append_assoc]

end

/-! ### The machine on the tokens of a value -/

section Machine

variable {st st' : State} {t : Token} {ts : List Token}

theorem foldlM_step_cons (h : step st t = some st') :
    (t :: ts).foldlM step st = ts.foldlM step st' := by
  rw [List.foldlM_cons, h]
  rfl

theorem step_key (before : List (String × Json)) (key : String) (outer : List Frame) :
    step (.key before outer) (.string (key.toList.flatMap escapeChar)) =
      some (.colon before key outer) := by
  rw [step, stepKey, unquote_escaped, Option.map_some]

end Machine

mutual

/-- Where a value is due, its tokens lead to what may follow it. -/
theorem foldlM_tokens (outer : List Frame) (ts : List Token) :
    ∀ j : Json, (j.tokens ++ ts).foldlM step (.value outer) = ts.foldlM step (.next j outer)
  | .null => rfl
  | .bool true => rfl
  | .bool false => rfl
  | .int v => by
    have hstep : step (.value outer) (.word (intText v).toList) = some (.next (.int v) outer) := by
      rw [step, stepValue, readWord_intText, Option.map_some]
    rw [tokens, List.singleton_append, foldlM_step_cons hstep]
  | .str s => by
    have hstep : step (.value outer) (.string (s.toList.flatMap escapeChar)) =
        some (.next (.str s) outer) := by
      rw [step, stepValue, unquote_escaped, Option.map_some]
    rw [tokens, List.singleton_append, foldlM_step_cons hstep]
  | .arr [] => rfl
  | .arr (j :: items) => by
    have hopen : step (.value outer) (.mark '[') = some (.value (.items [] :: outer)) := rfl
    rw [tokens, List.cons_append, List.cons_append, foldlM_step_cons hopen, List.append_assoc,
      List.singleton_append, foldlM_itemTokens _ _ _ _ (List.cons_ne_nil j items),
      List.nil_append]
  | .obj [] => rfl
  | .obj (field :: fields) => by
    have hopen : step (.value outer) (.mark '\x7b') = some (.key [] outer) := rfl
    rw [tokens, List.cons_append, List.cons_append, foldlM_step_cons hopen, List.append_assoc,
      List.singleton_append, foldlM_fieldTokens _ _ _ _ (List.cons_ne_nil field fields),
      List.nil_append]

theorem foldlM_itemTokens (before : List Json) (outer : List Frame) (ts : List Token) :
    ∀ items : List Json, items ≠ [] →
      (itemTokens items ++ .mark ']' :: ts).foldlM step (.value (.items before :: outer)) =
        ts.foldlM step (.next (.arr (before ++ items)) outer)
  | [], hne => absurd rfl hne
  | [j], _ => by
    have hclose : step (.next j (.items before :: outer)) (.mark ']') =
        some (.next (.arr (before ++ [j])) outer) := rfl
    rw [itemTokens, foldlM_tokens, foldlM_step_cons hclose]
  | j :: k :: items, _ => by
    have hcomma : step (.next j (.items before :: outer)) (.mark ',') =
        some (.value (.items (before ++ [j]) :: outer)) := rfl
    rw [itemTokens, List.append_assoc, foldlM_tokens, List.cons_append, foldlM_step_cons hcomma,
      foldlM_itemTokens _ _ _ _ (List.cons_ne_nil k items), List.append_assoc,
      List.singleton_append]

theorem foldlM_fieldTokens (before : List (String × Json)) (outer : List Frame)
    (ts : List Token) :
    ∀ fields : List (String × Json), fields ≠ [] →
      (fieldTokens fields ++ .mark '\x7d' :: ts).foldlM step (.key before outer) =
        ts.foldlM step (.next (.obj (before ++ fields)) outer)
  | [], hne => absurd rfl hne
  | [(key, j)], _ => by
    have hcolon : step (.colon before key outer) (.mark ':') =
        some (.value (.field before key :: outer)) := rfl
    have hclose : step (.next j (.field before key :: outer)) (.mark '\x7d') =
        some (.next (.obj (before ++ [(key, j)])) outer) := rfl
    rw [fieldTokens, List.cons_append, foldlM_step_cons (step_key before key outer),
      List.cons_append, foldlM_step_cons hcolon, foldlM_tokens, foldlM_step_cons hclose]
  | (key, j) :: field :: fields, _ => by
    have hcolon : step (.colon before key outer) (.mark ':') =
        some (.value (.field before key :: outer)) := rfl
    have hcomma : step (.next j (.field before key :: outer)) (.mark ',') =
        some (.key (before ++ [(key, j)]) outer) := rfl
    rw [fieldTokens, List.cons_append, List.cons_append, List.cons_append, List.cons_append,
      foldlM_step_cons (step_key before key outer), foldlM_step_cons hcolon, List.append_assoc,
      foldlM_tokens, List.cons_append, foldlM_step_cons hcomma,
      foldlM_fieldTokens _ _ _ _ (List.cons_ne_nil field fields), List.append_assoc,
      List.singleton_append]

end

theorem ofTokens_tokens (j : Json) : ofTokens j.tokens = some j := by
  have hrun := foldlM_tokens [] [] j
  rw [List.append_nil] at hrun
  rw [ofTokens, hrun]
  rfl

theorem read_pretty (j : Json) : read j.pretty = some j := by
  have hscan := tokensFrom_pretty 0 [] (fun _ h => absurd h (by simp)) j
  rw [List.append_nil] at hscan
  rw [read, pretty, String.toList_ofList, hscan, tokensFrom, Option.map_some, Option.bind_some,
    List.append_nil, ofTokens_tokens]

end YangEvolution.Text.Json
