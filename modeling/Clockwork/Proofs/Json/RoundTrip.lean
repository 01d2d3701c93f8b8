import Mathlib.Data.List.Basic
import Mathlib.Data.List.TakeDrop
import Mathlib.Data.List.TakeWhile
import Mathlib.Tactic.SplitIfs
import Clockwork.Json.Printer
import Clockwork.Json.Reader
/-!
Printed values are read again. The blanks of the layout are no tokens, texts come back from their
escapes and numbers from their digits, so that the characters of a value have one reading as tokens
(`lex_pretty`). The reader takes the tokens of a value in one go, whatever is open around it, if the
value does not nest too deep there (`parse?_pretty`).
-/

namespace Clockwork.Json

open Text (isDigit decimal)

inductive Integral : Json → Prop where
  | null : Integral .null
  | bool (b : Bool) : Integral (.bool b)
  | number {n : Numeral} (h : n.integral = true) : Integral (.number n)
  | text (s : String) : Integral (.text s)
  | array {items : List Json} (h : ∀ j ∈ items, Integral j) : Integral (.array items)
  | object {members : List (String × Json)} (h : ∀ m ∈ members, Integral m.2) :
      Integral (.object members)

mutual

def tokens : Json → List Token
  | null => [.null]
  | bool b => [.bool b]
  | number n => [.number n]
  | text s => [.text s]
  | array items => .openArray :: (tokensOfItems items ++ [.closeArray])
  | object members => .openObject :: (tokensOfMembers members ++ [.closeObject])

def tokensOfItems : List Json → List Token
  | [] => []
  | [j] => tokens j
  | j :: rest => tokens j ++ (.comma :: tokensOfItems rest)

def tokensOfMembers : List (String × Json) → List Token
  | [] => []
  | [(k, j)] => .text k :: .colon :: tokens j
  | (k, j) :: rest => .text k :: .colon :: (tokens j ++ (.comma :: tokensOfMembers rest))

end

def Ends (rest : List Char) : Prop :=
  ∀ c ∈ rest.head?, isNumeral c = false ∧ isLetter c = false

/-- Some characters have the given tokens, whatever comes behind them. -/
def Spells (cs : List Char) (ts : List Token) : Prop :=
  ∀ found rest, Ends rest → lex found .between (cs ++ rest) =
  lex (ts.reverse ++ found) .between rest

theorem lex_begin {found found' : List Token} {next : Lexeme} {c : Char}
    (h : begin? found c = some (found', next)) (rest : List Char) :
    lex found .between (c :: rest) = lex found' next rest := by
  rw [lex, h]

theorem lex_inNumber_cons (found : List Token) (done : List Char) {c : Char}
    (h : isNumeral c = true) (rest : List Char) :
    lex found (.inNumber done) (c :: rest) = lex found (.inNumber (c :: done)) rest := if_pos h

theorem lex_inWord_cons (found : List Token) (done : List Char) {c : Char} (h : isLetter c = true)
    (rest : List Char) :
    lex found (.inWord done) (c :: rest) = lex found (.inWord (c :: done)) rest := if_pos h

theorem lex_unicode (found : List Token) (done : List Char) {a b c d x : Char}
    (h : (Text.hexValue? [a, b, c, d]).bind Text.scalar? = some x) (rest : List Char) :
    lex found (.inText done) ('\\' :: 'u' :: a :: b :: c :: d :: rest) =
      lex found (.inText (x :: done)) rest := by
  obtain ⟨n, hn, hx⟩ := Option.bind_eq_some_iff.mp h
  rw [lex, hn]
  simp only [hx]

theorem lex_number_end (found : List Token) {done rest : List Char} {n : Numeral}
    (h : numeral? done.reverse = some n) (hrest : Ends rest) :
    lex found (.inNumber done) rest = lex (.number n :: found) .between rest := by
  cases rest with
  | nil => exact congrArg (Option.map fun n => (Token.number n :: found).reverse) h
  | cons c rest =>
      have hc : ¬isNumeral c = true := by simp [(hrest c rfl).1]
      refine (if_neg hc).trans ?_
      rw [h]
      rfl

theorem lex_word_end (found : List Token) {done rest : List Char} {t : Token}
    (h : word? done.reverse = some t) (hrest : Ends rest) :
    lex found (.inWord done) rest = lex (t :: found) .between rest := by
  cases rest with
  | nil => exact congrArg (Option.map fun t => (t :: found).reverse) h
  | cons c rest =>
      have hc : ¬isLetter c = true := by simp [(hrest c rfl).2]
      refine (if_neg hc).trans ?_
      rw [h]
      rfl

theorem lex_mark (found : List Token) {c : Char} {t : Token} (h : mark? c = some t)
    (rest : List Char) : lex found .between (c :: rest) = lex (t :: found) .between rest := by
  unfold mark? at h
  split at h <;> cases h <;> rfl

theorem lex_blanks (found : List Token) (n : Nat) (rest : List Char) :
    lex found .between (List.replicate n ' ' ++ rest) = lex found .between rest := by
  induction n with
  | zero => rfl
  | succ n ih => exact ih

theorem lex_newline (found : List Token) (level : Nat) (rest : List Char) :
    lex found .between (newline level ++ rest) = lex found .between rest :=
  lex_blanks found (2 * level) rest

theorem lex_escape (found : List Token) (done : List Char) {c x : Char} (h : escape? c = some x)
    (rest : List Char) :
    lex found (.inText done) ('\\' :: c :: rest) = lex found (.inText (x :: done)) rest := by
  unfold escape? at h
  split at h <;> cases h <;> rfl

theorem lex_plain (found : List Token) (done : List Char) {c : Char} (hquote : c ≠ '"')
    (hslash : c ≠ '\\') (hcontrol : ¬c.toNat < 0x20) (rest : List Char) :
    lex found (.inText done) (c :: rest) = lex found (.inText (c :: done)) rest := by
  rw [lex, if_neg hcontrol]
  all_goals intros; simp_all

theorem scalar?_toNat (c : Char) : Text.scalar? c.toNat = some c := by
  have hvalid : c.toNat.isValidChar := c.valid
  rw [Text.scalar?, if_pos hvalid, Char.ofNat_toNat]

theorem hexByte_spec : ∀ n < 0x20, (Text.hexByte (UInt8.ofNat n)).toList.length = 2 ∧
    Text.hexValue? ('0' :: '0' :: (Text.hexByte (UInt8.ofNat n)).toList) = some n := by
  decide

theorem lex_control (found : List Token) (done : List Char) {c : Char} (h : c.toNat < 0x20)
    (rest : List Char) :
    lex found (.inText done)
        ('\\' :: 'u' :: '0' :: '0' :: ((Text.hexByte (UInt8.ofNat c.toNat)).toList ++ rest)) =
      lex found (.inText (c :: done)) rest := by
  obtain ⟨hlength, hvalue⟩ := hexByte_spec c.toNat h
  obtain ⟨a, b, hdigits⟩ := List.length_eq_two.mp hlength
  rw [hdigits] at hvalue ⊢
  refine lex_unicode found done ?_ rest
  rw [hvalue, Option.bind_some, scalar?_toNat]

theorem lex_escapeChar (found : List Token) (done : List Char) (c : Char) (rest : List Char) :
    lex found (.inText done) (escapeChar c ++ rest) = lex found (.inText (c :: done)) rest := by
  unfold escapeChar
  split_ifs with hquote hslash hline hreturn htab hback hfeed hcontrol
  all_goals try (subst c; exact lex_escape found done rfl rest)
  · exact lex_control found done hcontrol rest
  · exact lex_plain found done hquote hslash hcontrol rest

theorem lex_escaped (found : List Token) (done cs rest : List Char) :
    lex found (.inText done) (cs.flatMap escapeChar ++ rest) =
      lex found (.inText (cs.reverse ++ done)) rest := by
  induction cs generalizing done with
  | nil => rfl
  | cons c cs ih =>
      rw [List.flatMap_cons, List.append_assoc, lex_escapeChar, ih, List.reverse_cons,
        List.append_assoc, List.singleton_append]

theorem lex_quote (found : List Token) (s : String) (rest : List Char) :
    lex found .between (quote s ++ rest) = lex (.text s :: found) .between rest := by
  have hopen : lex found .between (quote s ++ rest) =
      lex found (.inText []) (s.toList.flatMap escapeChar ++ ('"' :: rest)) := by
    rw [quote, List.cons_append, List.append_assoc, List.singleton_append]
    rfl
  have hclose : lex found (.inText s.toList.reverse) ('"' :: rest) =
      lex (.text s :: found) .between rest := by
    change lex (.text (String.ofList s.toList.reverse.reverse) :: found) .between rest = _
    rw [List.reverse_reverse, String.ofList_toList]
  rw [hopen, lex_escaped, List.append_nil, hclose]

theorem head?_toDigits {n : Nat} (h : 0 < n) : (Nat.toDigits 10 n).head? ≠ some '0' := by
  induction n using Nat.strongRecOn with
  | _ n ih =>
      rw [Nat.toDigits_eq_if (by decide)]
      split
      · simp only [List.head?_cons, ne_eq, Option.some.injEq, Nat.digitChar_eq_zero]
        omega
      · rw [List.head?_append, Option.or_of_isSome (by simp)]
        exact ih (n / 10) (by omega) (by omega)

theorem isDigit_of_mem_toDigits {n : Nat} {c : Char} (h : c ∈ Nat.toDigits 10 n) :
    isDigit c = true :=
  Nat.isDigit_of_mem_toDigits (by decide) (by decide) h

theorem span_toDigits (n : Nat) : (Nat.toDigits 10 n).span isDigit = (Nat.toDigits 10 n, []) := by
  have hall : ∀ c ∈ Nat.toDigits 10 n, isDigit c = true := fun c hc => isDigit_of_mem_toDigits hc
  rw [List.span_eq_takeWhile_dropWhile, List.takeWhile_eq_self_iff.mpr hall,
    List.dropWhile_eq_nil_iff.mpr hall]

theorem toDigits_eq_cons (n : Nat) : ∃ c cs, Nat.toDigits 10 n = c :: cs ∧ isDigit c = true := by
  obtain ⟨c, cs, hcs⟩ := List.exists_cons_of_ne_nil (Nat.toDigits_ne_nil (n := n) (b := 10))
  exact ⟨c, cs, hcs, isDigit_of_mem_toDigits (hcs ▸ List.mem_cons_self)⟩

theorem leadingZero_toDigits (n : Nat) : (Nat.toDigits 10 n).isEmpty = false ∧
    ((Nat.toDigits 10 n).head? == some '0' && (Nat.toDigits 10 n).length != 1) = false := by
  refine ⟨by simp, ?_⟩
  rcases Nat.eq_zero_or_pos n with rfl | hpos
  · decide
  · simp [head?_toDigits hpos]

theorem numeral?_of_digits {ds : List Char} (hspan : ds.span isDigit = (ds, []))
    (hempty : ds.isEmpty = false) (hzero : (ds.head? == some '0' && ds.length != 1) = false) :
    numeral? ds = some ⟨false, decimal ds, true⟩ ∧
      numeral? ('-' :: ds) = some ⟨true, decimal ds, true⟩ := by
  have hfirst : ∀ rest, ds ≠ '-' :: rest := by
    rintro rest rfl
    simp [List.span_eq_takeWhile_dropWhile, isDigit] at hspan
  constructor
  · unfold numeral?
    split
    rename_i heq
    split at heq <;> cases heq
    · exact absurd rfl (hfirst _)
    · simp only [hspan, hempty, hzero, Bool.or_self, Bool.false_eq_true, ↓reduceIte,
        List.isEmpty_nil]
  · simp only [numeral?, hspan, hempty, hzero, Bool.or_self, Bool.false_eq_true, ↓reduceIte,
      List.isEmpty_nil]

theorem numeral?_numeral {n : Numeral} (h : n.integral = true) : numeral? (numeral n) = some n := by
  obtain ⟨negative, whole, integral⟩ := n
  cases h
  have hvalue : decimal (Nat.toDigits 10 whole) = whole := Nat.ofDigitChars_ten_toDigits
  obtain ⟨hempty, hzero⟩ := leadingZero_toDigits whole
  obtain ⟨hplain, hminus⟩ := numeral?_of_digits (span_toDigits whole) hempty hzero
  rw [hvalue] at hplain hminus
  rw [numeral, Nat.toList_repr]
  cases negative with
  | true => exact hminus
  | false => exact hplain

theorem lex_inNumber (found : List Token) (done cs : List Char) {rest : List Char}
    (h : ∀ c ∈ cs, isNumeral c = true) :
    lex found (.inNumber done) (cs ++ rest) = lex found (.inNumber (cs.reverse ++ done)) rest := by
  induction cs generalizing done with
  | nil => rfl
  | cons c cs ih =>
      rw [List.cons_append, lex_inNumber_cons found done (h c List.mem_cons_self),
        ih (c :: done) fun d hd => h d (List.mem_cons_of_mem c hd), List.reverse_cons,
        List.append_assoc, List.singleton_append]

theorem isNumeral_of_mem_numeral {n : Numeral} {c : Char} (h : c ∈ numeral n) :
    isNumeral c = true := by
  rw [numeral, Nat.toList_repr, List.mem_append] at h
  rcases h with h | h
  · split at h
    · cases List.mem_singleton.mp h
      decide
    · cases h
  · simp [isNumeral, isDigit_of_mem_toDigits h]

theorem numeral_eq_cons (n : Numeral) (found : List Token) :
    ∃ c cs, numeral n = c :: cs ∧ begin? found c = some (found, .inNumber [c]) := by
  obtain ⟨c, cs, hcs, hc⟩ := toDigits_eq_cons n.whole
  have hdigit : '0' ≤ c ∧ c ≤ '9' := by simpa [isDigit] using hc
  rw [numeral, Nat.toList_repr, hcs]
  split
  · exact ⟨'-', c :: cs, rfl, rfl⟩
  · refine ⟨c, cs, rfl, ?_⟩
    have hblank : isBlank c = false := by
      simp only [isBlank, Bool.or_eq_false_iff, beq_eq_false_iff_ne]
      refine ⟨⟨⟨?_, ?_⟩, ?_⟩, ?_⟩ <;> rintro rfl <;> exact absurd hdigit.1 (by decide)
    have hquote : c ≠ '"' := by
      rintro rfl
      exact absurd hdigit.1 (by decide)
    simp [begin?, hblank, hquote, hc]

theorem lex_numeral (found : List Token) {n : Numeral} (h : n.integral = true)
    {rest : List Char} (hrest : Ends rest) :
    lex found .between (numeral n ++ rest) = lex (.number n :: found) .between rest := by
  obtain ⟨c, cs, hcs, hbegin⟩ := numeral_eq_cons n found
  have hall : ∀ d ∈ cs, isNumeral d = true := fun d hd =>
    isNumeral_of_mem_numeral (hcs ▸ List.mem_cons_of_mem c hd)
  rw [hcs, List.cons_append, lex_begin hbegin, lex_inNumber found [c] cs hall]
  refine lex_number_end found ?_ hrest
  rw [List.reverse_append, List.reverse_reverse, List.reverse_singleton,
    List.singleton_append, ← hcs]
  exact numeral?_numeral h

theorem lex_inWord (found : List Token) (done cs : List Char) {rest : List Char}
    (h : cs.all isLetter = true) :
    lex found (.inWord done) (cs ++ rest) = lex found (.inWord (cs.reverse ++ done)) rest := by
  induction cs generalizing done with
  | nil => rfl
  | cons c cs ih =>
      rw [List.all_cons, Bool.and_eq_true] at h
      rw [List.cons_append, lex_inWord_cons found done h.1, ih (c :: done) h.2, List.reverse_cons,
        List.append_assoc, List.singleton_append]

theorem lex_null (found : List Token) {rest : List Char} (hrest : Ends rest) :
    lex found .between ("null".toList ++ rest) = lex (.null :: found) .between rest :=
  (lex_inWord found ['n'] ['u', 'l', 'l'] (by decide)).trans
    (lex_word_end found (by decide) hrest)

theorem lex_bool (found : List Token) (b : Bool) {rest : List Char} (hrest : Ends rest) :
    lex found .between ((if b then "true" else "false").toList ++ rest) =
      lex (.bool b :: found) .between rest := by
  cases b with
  | true =>
      exact (lex_inWord found ['t'] ['r', 'u', 'e'] (by decide)).trans
        (lex_word_end found (by decide) hrest)
  | false =>
      exact (lex_inWord found ['f'] ['a', 'l', 's', 'e'] (by decide)).trans
        (lex_word_end found (by decide) hrest)

namespace Spells

variable {cs cs' : List Char} {ts ts' : List Token}

theorem nil : Spells [] [] := fun _ _ _ => rfl

theorem mark {c : Char} {t : Token} (hc : mark? c = some t) (h : Spells cs ts) :
    Spells (c :: cs) (t :: ts) := fun found rest hrest => by
  rw [List.cons_append, lex_mark found hc, h _ rest hrest, List.reverse_cons, List.append_assoc,
    List.singleton_append]

theorem line (level : Nat) (h : Spells cs ts) : Spells (newline level ++ cs) ts :=
  fun found rest hrest => by rw [List.append_assoc, lex_newline, h found rest hrest]

theorem key (k : String) (h : Spells cs ts) :
    Spells (quote k ++ (':' :: ' ' :: cs)) (.text k :: .colon :: ts) := fun found rest hrest => by
  have hcolon : lex (.text k :: found) .between (':' :: ' ' :: (cs ++ rest)) =
      lex (.colon :: .text k :: found) .between (cs ++ rest) := rfl
  rw [List.append_assoc, lex_quote, List.cons_append, List.cons_append, hcolon, h _ rest hrest]
  simp only [List.reverse_cons, List.append_assoc, List.cons_append, List.nil_append]

theorem append (h : Spells cs ts) (h' : Spells cs' ts') (hends : ∀ rest, Ends (cs' ++ rest)) :
    Spells (cs ++ cs') (ts ++ ts') := fun found rest hrest => by
  rw [List.append_assoc, h found _ (hends rest), h' _ rest hrest, List.reverse_append,
    List.append_assoc]

end Spells

theorem ends_comma (cs rest : List Char) : Ends (',' :: cs ++ rest) := by
  simp [Ends, isNumeral, isLetter, isDigit]

theorem ends_line (level : Nat) (cs rest : List Char) : Ends (newline level ++ cs ++ rest) := by
  simp [Ends, newline, isNumeral, isLetter, isDigit]

mutual

theorem spells_pretty (level : Nat) : ∀ {j : Json}, j.Integral →
    Spells (prettyChars level j) (tokens j)
  | null, _ => fun found _ hrest => lex_null found hrest
  | bool b, _ => fun found _ hrest => lex_bool found b hrest
  | number _, .number h => fun found _ hrest => lex_numeral found h hrest
  | text s, _ => fun found rest _ => lex_quote found s rest
  | array [], _ => .mark rfl (.mark rfl .nil)
  | array (_ :: _), .array h =>
      .mark rfl ((spells_items (level + 1) h).append (.line level (.mark rfl .nil))
        (ends_line level [']']))
  | object [], _ => .mark rfl (.mark rfl .nil)
  | object (_ :: _), .object h =>
      .mark rfl ((spells_members (level + 1) h).append (.line level (.mark rfl .nil))
        (ends_line level ['\x7d']))

theorem spells_items (level : Nat) : ∀ {items : List Json}, (∀ j ∈ items, j.Integral) →
    Spells (prettyItems level items) (tokensOfItems items)
  | [], _ => .nil
  | [j], h => .line level (spells_pretty level (h j List.mem_cons_self))
  | j :: _ :: _, h =>
      .line level ((spells_pretty level (h j List.mem_cons_self)).append
        (.mark rfl (spells_items level fun k hk => h k (List.mem_cons_of_mem j hk)))
        (ends_comma _))

theorem spells_members (level : Nat) : ∀ {members : List (String × Json)},
    (∀ m ∈ members, m.2.Integral) → Spells (prettyMembers level members) (tokensOfMembers members)
  | [], _ => .nil
  | [(k, j)], h => .line level (.key k (spells_pretty level (h (k, j) List.mem_cons_self)))
  | (k, j) :: _ :: _, h =>
      .line level (.key k ((spells_pretty level (h (k, j) List.mem_cons_self)).append
        (.mark rfl (spells_members level fun m hm => h m (List.mem_cons_of_mem (k, j) hm)))
        (ends_comma _)))

end

theorem lex_pretty {j : Json} (h : j.Integral) :
    lex [] .between j.pretty.toList = some j.tokens := by
  have hlex := spells_pretty 0 h [] [] (by simp [Ends])
  rw [List.append_nil, List.append_nil] at hlex
  rw [pretty, String.toList_ofList, hlex, lex, List.reverse_reverse]

def Expectation.Open (e : Expectation) : Prop := e = .value ∨ e = .item

variable {limit : Nat} {stack : List Container} {e : Expectation} {rest : List Token}

theorem build_cons {t : Token} {stack' : List Container} {e' : Expectation}
    (h : advance limit stack e t = some (stack', e')) :
    build limit stack e (t :: rest) = build limit stack' e' rest := by
  rw [build, h]

theorem advance_start (he : e.Open) {t : Token} (ht : t ≠ .closeArray) :
    advance limit stack e t = startValue limit stack t := by
  rcases he with rfl | rfl <;> cases t <;> first | rfl | exact absurd rfl ht

theorem build_value (he : e.Open) {t : Token} {j : Json} (h : t.value? = some j) :
    build limit stack e (t :: rest) = build limit stack (.after j) rest := by
  refine build_cons ((advance_start he ?_).trans ?_)
  · rintro rfl
    cases h
  · cases t <;> cases h <;> rfl

mutual

theorem build_tokens : ∀ {j : Json} {stack : List Container} {e : Expectation}, e.Open →
    stack.length + j.depth ≤ limit → ∀ rest,
      build limit stack e (tokens j ++ rest) = build limit stack (.after j) rest
  | null, _, _, he, _, _ => build_value he rfl
  | bool _, _, _, he, _, _ => build_value he rfl
  | number _, _, _, he, _, _ => build_value he rfl
  | text _, _, _, he, _, _ => build_value he rfl
  | array items, stack, e, he, hd, rest => by
      rw [depth] at hd
      have hopen : advance limit stack e .openArray = some (.array [] :: stack, .item) := by
        rw [advance_start he (by decide), startValue, if_pos (by omega)]
      rw [tokens, List.cons_append, build_cons hopen, List.append_assoc]
      cases items with
      | nil => exact build_cons rfl
      | cons j items =>
          exact build_items (List.cons_ne_nil j items) (.inr rfl) []
            (by rw [List.length_cons]; omega) rest
  | object members, stack, e, he, hd, rest => by
      rw [depth] at hd
      have hopen : advance limit stack e .openObject = some (stack, .key true []) := by
        rw [advance_start he (by decide), startValue, if_pos (by omega)]
      rw [tokens, List.cons_append, build_cons hopen, List.append_assoc]
      cases members with
      | nil => exact build_cons rfl
      | cons m members => exact build_members (List.cons_ne_nil m members) true [] hd rest

theorem build_items : ∀ {items : List Json} {stack : List Container} {e : Expectation},
    items ≠ [] → e.Open → ∀ done,
      (Container.array done :: stack).length + depthItems items ≤ limit → ∀ rest,
        build limit (.array done :: stack) e (tokensOfItems items ++ ([.closeArray] ++ rest)) =
          build limit stack (.after (.array (done.reverse ++ items))) rest
  | [], _, _, hne, _, _, _, _ => absurd rfl hne
  | [j], stack, e, _, he, done, hd, rest => by
      rw [depthItems, depthItems, Nat.max_zero] at hd
      rw [tokensOfItems, build_tokens he hd, List.singleton_append, build_cons rfl,
        List.reverse_cons]
  | j :: j' :: items, stack, e, _, he, done, hd, rest => by
      rw [depthItems] at hd
      have hj := Nat.le_trans (Nat.add_le_add_left (Nat.le_max_left _ _) _) hd
      have hitems := Nat.le_trans (Nat.add_le_add_left (Nat.le_max_right _ _) _) hd
      have hcomma : advance limit (.array done :: stack) (.after j) .comma =
          some (.array (j :: done) :: stack, .value) := rfl
      rw [tokensOfItems, List.append_assoc, build_tokens he hj, List.cons_append,
        build_cons hcomma, build_items (List.cons_ne_nil j' items) (.inl rfl) (j :: done) hitems,
        List.reverse_cons, List.append_assoc, List.singleton_append]
      exact List.cons_ne_nil j' items

theorem build_members : ∀ {members : List (String × Json)} {stack : List Container},
    members ≠ [] → ∀ (first : Bool) (done : List (String × Json)),
      stack.length + (depthMembers members + 1) ≤ limit → ∀ rest,
        build limit stack (.key first done)
            (tokensOfMembers members ++ ([.closeObject] ++ rest)) =
          build limit stack (.after (.object (done.reverse ++ members))) rest
  | [], _, hne, _, _, _, _ => absurd rfl hne
  | [(k, j)], stack, _, first, done, hd, rest => by
      rw [depthMembers, depthMembers, Nat.max_zero] at hd
      have hkey :
          advance limit stack (.key first done) (.text k) = some (stack, .colon done k) := rfl
      have hcolon : advance limit stack (.colon done k) .colon =
          some (.object done k :: stack, .value) := rfl
      rw [tokensOfMembers, List.cons_append, build_cons hkey, List.cons_append, build_cons hcolon,
        build_tokens (.inl rfl) (by rw [List.length_cons]; omega), List.singleton_append,
        build_cons rfl, List.reverse_cons]
  | (k, j) :: m :: members, stack, _, first, done, hd, rest => by
      rw [depthMembers] at hd
      have hj := Nat.le_max_left j.depth (depthMembers (m :: members))
      have hmembers := Nat.le_max_right j.depth (depthMembers (m :: members))
      have hkey :
          advance limit stack (.key first done) (.text k) = some (stack, .colon done k) := rfl
      have hcolon : advance limit stack (.colon done k) .colon =
          some (.object done k :: stack, .value) := rfl
      have hcomma : advance limit (.object done k :: stack) (.after j) .comma =
          some (stack, .key false ((k, j) :: done)) := rfl
      rw [tokensOfMembers, List.cons_append, build_cons hkey, List.cons_append, build_cons hcolon,
        List.append_assoc, build_tokens (.inl rfl) (by rw [List.length_cons]; omega),
        List.cons_append, build_cons hcomma,
        build_members (List.cons_ne_nil m members) false ((k, j) :: done) (by omega),
        List.reverse_cons, List.append_assoc,
        List.singleton_append]
      exact List.cons_ne_nil m members

end

theorem parse?_pretty {j : Json} (h : j.Integral) (hd : j.depth ≤ limit) :
    parse? limit j.pretty = some j := by
  have hbuild : build limit [] .value (tokens j ++ []) = build limit [] (.after j) [] :=
    build_tokens (.inl rfl) (by simpa using hd) []
  rw [parse?, lex_pretty h]
  rw [List.append_nil] at hbuild
  exact hbuild

end Clockwork.Json
