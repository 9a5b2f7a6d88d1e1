import Mathlib.Data.List.Chain
import Mathlib.Data.List.TakeDrop
import Std.Data.String.ToNat
import Clausal.Json.Fields

/-!
# Texts of JSON values

A value is read back from its text (`Value.read_write`). The characters of a string and the digits
of a number are scanned as they were spelled, so a token is, when what follows a number ends it
(`Token.scan_spell`). Tokens are found again in their text when this holds all along
(`scan_tokens_spell`), and the walk over the tokens of a value comes out behind it
(`Value.is_walked`).
-/

namespace Clausal.Json

/-! ## Strings -/

section Strings

variable {c letter : Char} {done : List Nat} {rest : List Char}

/-- A short escape stands for its character, and none is the letter of the long ones. -/
theorem escaped_of_short (h : shortEscape? c = some letter) :
    letter ≠ 'u' ∧ escaped? letter = some c.toNat := by
  unfold shortEscape? at h
  repeat' split at h
  all_goals cases h
  all_goals
    subst c
    decide

theorem hex_value_control :
    ∀ n < 0x20, hexValue4? '0' '0' (hexDigit (n / 16)) (hexDigit (n % 16)) = some n := by
  decide

theorem scan_quote : scanString done ('"' :: rest) = some (done.reverse, rest) := by
  rw [scanString.eq_def]
  simp

theorem scan_plain (hquote : c ≠ '"') (hslash : c ≠ '\\') (hprints : ¬ c.toNat < 0x20) :
    scanString done (c :: rest) = scanString (c.toNat :: done) rest := by
  rw [scanString.eq_def]
  simp only [if_neg hquote, if_neg hslash, if_neg hprints]

theorem scan_short {n : Nat} (hletter : letter ≠ 'u') (h : escaped? letter = some n) :
    scanString done ('\\' :: letter :: rest) = scanString (n :: done) rest := by
  rw [scanString, if_neg (by decide), if_pos rfl, h]
  exact fun _ _ _ _ _ heq _ => hletter heq

/-- A character is scanned as it was spelled. -/
theorem scan_spell_char :
    scanString done (spellChar c ++ rest) = scanString (c.toNat :: done) rest := by
  unfold spellChar
  split
  · next letter hshort =>
      obtain ⟨hletter, hescaped⟩ := escaped_of_short hshort
      exact scan_short hletter hescaped
  · next hshort =>
      split
      · next hcontrol => simp [scanString, hex_value_control _ hcontrol]
      · next hprints =>
          have hquote : c ≠ '"' := by rintro rfl; cases hshort
          have hslash : c ≠ '\\' := by rintro rfl; cases hshort
          exact scan_plain hquote hslash hprints

/-- A string is scanned up to the quote that closes it. -/
theorem scan_spell_chars {cs : List Char} :
    scanString done (cs.flatMap spellChar ++ '"' :: rest) =
      some (done.reverse ++ cs.map Char.toNat, rest) := by
  induction cs generalizing done with
  | nil => rw [List.flatMap_nil, List.nil_append, scan_quote, List.map_nil, List.append_nil]
  | cons c cs ih =>
      rw [List.flatMap_cons, List.append_assoc, scan_spell_char, ih]
      simp

/-- No character is half of a surrogate pair. -/
theorem not_surrogate (c : Char) :
    isHighSurrogate c.toNat = false ∧ isLowSurrogate c.toNat = false := by
  have hvalid : c.toNat < 0xD800 ∨ 0xDFFF < c.toNat ∧ c.toNat < 0x110000 := c.valid
  simp only [isHighSurrogate, isLowSurrogate, Bool.and_eq_false_iff, decide_eq_false_iff_not]
  omega

/-- Code points of characters are the text of these characters. -/
theorem text_of_chars {done cs : List Char} :
    textOf? done (cs.map Char.toNat) = some (String.ofList (done.reverse ++ cs)) := by
  induction cs generalizing done with
  | nil => simp [textOf?]
  | cons c cs ih =>
      obtain ⟨hhigh, hlow⟩ := not_surrogate c
      rw [List.map_cons, textOf?.eq_def]
      simp [hhigh, hlow, ih]

end Strings

/-! ## Numbers -/

/-- What follows a number in the text of a value: nothing or the sign after an element. -/
def EndsNumber (rest : List Char) : Prop := ∀ c ∈ rest.head?, c = ',' ∨ c = ']' ∨ c = '}'

section Numbers

variable {digits rest : List Char} {n : Nat}

theorem scan_digits (hne : digits ≠ []) (hdigits : ∀ c ∈ digits, c.isDigit = true)
    (hrest : EndsNumber rest) : scanDigits (digits ++ rest) = some (digits, rest) := by
  have hstop : rest.takeWhile Char.isDigit = [] ∧ rest.dropWhile Char.isDigit = rest := by
    cases rest with
    | nil => exact ⟨rfl, rfl⟩
    | cons c cs => rcases hrest c rfl with rfl | rfl | rfl <;> exact ⟨rfl, rfl⟩
  have hspan : (digits ++ rest).span Char.isDigit = (digits, rest) := by
    rw [List.span_eq_takeWhile_dropWhile, List.takeWhile_append_of_pos hdigits,
      List.dropWhile_append_of_pos hdigits, hstop.1, hstop.2, List.append_nil]
  unfold scanDigits
  rw [hspan]
  split
  · next heq => exact absurd (Prod.mk.inj heq).1 hne
  · next heq => rfl

theorem scan_fraction (hrest : EndsNumber rest) : scanFraction rest = some ([], rest) := by
  cases rest with
  | nil => rfl
  | cons c cs => rcases hrest c rfl with rfl | rfl | rfl <;> rfl

theorem scan_exponent (hrest : EndsNumber rest) : scanExponent rest = some ([], rest) := by
  cases rest with
  | nil => rfl
  | cons c cs => rcases hrest c rfl with rfl | rfl | rfl <;> rfl

/-- A positive number does not begin with a zero. -/
theorem to_digits_eq_cons (hpos : 0 < n) :
    ∃ c cs, Nat.toDigits 10 n = c :: cs ∧ c.isDigit = true ∧ c ≠ '0' := by
  induction n using Nat.strongRecOn with
  | ind n ih =>
      rcases Nat.lt_or_ge n 10 with hlt | hge
      · rw [Nat.toDigits_of_lt_base hlt]
        refine ⟨_, _, rfl, ?_⟩
        have hdigit : ∀ n < 10, 0 < n → n.digitChar.isDigit = true ∧ n.digitChar ≠ '0' := by decide
        exact hdigit n hlt hpos
      · obtain ⟨c, cs, hcs, hc⟩ := ih (n / 10) (by omega) (by omega)
        rw [Nat.toDigits_of_base_le (by decide) hge, hcs]
        exact ⟨c, _, List.cons_append .., hc⟩

/-- The digits of a natural number are those before the point, and no sign is in front of them. -/
theorem scan_whole_repr (hrest : EndsNumber rest) :
    ∃ c cs, n.repr.toList = c :: cs ∧ c.isDigit = true ∧
      scanWhole (c :: cs ++ rest) = some (c :: cs, rest) := by
  rw [Nat.toList_repr]
  rcases Nat.eq_zero_or_pos n with rfl | hpos
  · exact ⟨_, _, rfl, rfl, rfl⟩
  · obtain ⟨c, cs, heq, hdigit, hzero⟩ := to_digits_eq_cons hpos
    refine ⟨c, cs, heq, hdigit, ?_⟩
    have hdigits : ∀ c' ∈ c :: cs, c'.isDigit = true := fun c' hc' =>
      Nat.isDigit_of_mem_toDigits (by decide) (by decide) (heq ▸ hc')
    unfold scanWhole
    split
    · next hcons => exact absurd (List.cons.inj hcons).1 hzero
    · exact scan_digits nofun hdigits hrest

/-- A natural number is scanned as it is spelled. -/
theorem scan_number_repr (hrest : EndsNumber rest) :
    scanNumber (n.repr.toList ++ rest) = some (n.repr.toList, rest) := by
  obtain ⟨c, cs, heq, hdigit, hwhole⟩ := scan_whole_repr hrest (n := n)
  have hminus : c ≠ '-' := by rintro rfl; cases hdigit
  rw [heq]
  simp only [scanNumber]
  split
  · next hcons => exact absurd (List.cons.inj hcons).1 hminus
  · simp only [hwhole, scan_fraction hrest, scan_exponent hrest, Option.bind_eq_bind,
      Option.bind_some, List.nil_append, List.append_nil, Option.pure_def]

end Numbers

/-! ## Tokens -/

namespace Token

/-- A number is spelled as a natural number. -/
def IsPlain : Token → Prop
  | number literal => ∃ n : Nat, literal = n.repr
  | _ => True

/-- The tokens that stand behind an item or a member. -/
def EndsElement (t : Token) : Prop := t = comma ∨ t = closeArray ∨ t = closeObject

/-- The second token may follow the first: behind a number it ends the element. -/
def Precedes : Token → Token → Prop
  | number _, t => t.EndsElement
  | _, _ => True

variable {t : Token} {ts : List Token} {rest : List Char}

/-- A digit begins no token but a number. -/
theorem scan_digit {c : Char} {cs : List Char} (hdigit : c.isDigit = true) :
    scanToken (c :: cs) =
      (scanNumber (c :: cs)).map fun found => (number (String.ofList found.1), found.2) := by
  unfold scanToken
  split
  case h_11 => rfl
  all_goals
    next hcons =>
      obtain ⟨rfl, -⟩ := List.cons.inj hcons
      cases hdigit

/-- A token is scanned as it was spelled, if what follows a number ends it. -/
theorem scan_spell (ht : t.IsPlain) (hrest : ∀ literal, t = number literal → EndsNumber rest) :
    scanToken (t.spell ++ rest) = some (t, rest) := by
  cases t with
  | openArray | closeArray | openObject | closeObject | comma | colon | null => rfl
  | bool b => cases b <;> rfl
  | number literal =>
      obtain ⟨n, rfl⟩ := ht
      have hnumber := scan_number_repr (hrest _ rfl) (n := n)
      obtain ⟨c, cs, heq, hdigit, -⟩ := scan_whole_repr (hrest _ rfl) (n := n)
      have htoken : scanToken (c :: (cs ++ rest)) = _ := scan_digit hdigit
      rw [← List.cons_append, ← heq, hnumber] at htoken
      rw [spell, htoken, Option.map_some, String.ofList_toList]
  | string content =>
      cases content with
      | none =>
          have hhalf : hexValue4? 'd' '8' '0' '0' = some 0xD800 := by decide
          simp [spell, spellString, scanToken, scanString, hhalf, scan_quote, textOf?,
            isHighSurrogate]
      | some s =>
          have hchars : scanString [] (s.toList.flatMap spellChar ++ '"' :: rest) = _ :=
            scan_spell_chars
          simp only [spell, spellString, List.cons_append, List.append_assoc, List.nil_append,
            scanToken, hchars, Option.map_some, List.reverse_nil, text_of_chars,
            String.ofList_toList]

/-- A token is spelled with at least one character, and the first one is no blank. -/
theorem spell_eq_cons (ht : t.IsPlain) : ∃ c cs, t.spell = c :: cs ∧ isGap c = false := by
  cases t with
  | openArray | closeArray | openObject | closeObject | comma | colon | null =>
      exact ⟨_, _, rfl, rfl⟩
  | bool b => cases b <;> exact ⟨_, _, rfl, rfl⟩
  | number literal =>
      obtain ⟨n, rfl⟩ := ht
      have hends : EndsNumber [] := nofun
      obtain ⟨c, cs, heq, hdigit, -⟩ := scan_whole_repr hends (n := n)
      refine ⟨c, cs, heq, ?_⟩
      by_contra hgap
      simp only [isGap, Bool.or_eq_true, decide_eq_true_eq, Bool.not_eq_false] at hgap
      rcases hgap with ((rfl | rfl) | rfl) | rfl <;> cases hdigit
  | string content => cases content <;> exact ⟨_, _, rfl, rfl⟩

/-- What follows a number in a sequence of tokens ends the number. -/
theorem ends_number_of_precedes {literal : String}
    (h : ∀ t ∈ ts.head?, (number literal).Precedes t) : EndsNumber (ts.flatMap spell) := by
  cases ts with
  | nil => nofun
  | cons t ts =>
      intro c hc
      rcases h t rfl with rfl | rfl | rfl <;> cases hc <;> simp

/-- Tokens that are found again in their text. -/
structure AreScannable (ts : List Token) : Prop where
  plain : ∀ t ∈ ts, t.IsPlain
  chain : ts.IsChain Precedes

namespace AreScannable

variable {xs : List Token}

theorem singleton (ht : t.IsPlain) : AreScannable [t] :=
  ⟨List.forall_mem_singleton.2 ht, .singleton t⟩

theorem cons (ht : t.IsPlain) (hnext : ∀ t', t.Precedes t') (hts : AreScannable ts) :
    AreScannable (t :: ts) :=
  ⟨List.forall_mem_cons.2 ⟨ht, hts.plain⟩, List.isChain_cons.2 ⟨fun t' _ => hnext t', hts.chain⟩⟩

/-- Tokens may be put in front of those that begin with the end of an element. -/
theorem append (ht : t.EndsElement) (hxs : AreScannable xs) (hts : AreScannable (t :: ts)) :
    AreScannable (xs ++ t :: ts) := by
  refine ⟨List.forall_mem_append.2 ⟨hxs.plain, hts.plain⟩,
    List.isChain_append.2 ⟨hxs.chain, hts.chain, fun x _ t' ht' => ?_⟩⟩
  cases ht'
  cases x with
  | number => exact ht
  | _ => trivial

theorem comma (hxs : AreScannable xs) (hts : AreScannable ts) :
    AreScannable (xs ++ .comma :: ts) :=
  append (.inl rfl) hxs (cons trivial (fun _ => trivial) hts)

theorem close (ht : t = closeArray ∨ t = closeObject) (hxs : AreScannable xs) :
    AreScannable (xs ++ [t]) :=
  append (.inr ht) hxs (singleton (by rcases ht with rfl | rfl <;> trivial))

/-- Elements may stand in a row before what closes it. -/
theorem elements {xss : List (List Token)} (ht : t = closeArray ∨ t = closeObject)
    (h : ∀ xs ∈ xss, AreScannable xs) : AreScannable ([.comma].intercalate xss ++ [t]) := by
  induction xss with
  | nil => exact singleton (by rcases ht with rfl | rfl <;> trivial)
  | cons xs xss ih =>
      obtain ⟨hxs, hxss⟩ := List.forall_mem_cons.1 h
      cases xss with
      | nil => simpa using close ht hxs
      | cons ys yss => simpa using comma hxs (ih hxss)

/-- A key may be put in front of the value of a member. -/
theorem member {key : Option String} (hts : AreScannable ts) :
    AreScannable (.string key :: .colon :: ts) :=
  cons trivial (fun _ => trivial) (cons trivial (fun _ => trivial) hts)

end AreScannable

end Token

/-- The tokens of a text are found again. -/
theorem scan_tokens_spell {ts done : List Token} {bound : Nat} (h : Token.AreScannable ts)
    (hbound : (ts.flatMap Token.spell).length ≤ bound) :
    scanTokens done bound (ts.flatMap Token.spell) = some (done.reverse ++ ts) := by
  induction ts generalizing done bound with
  | nil => cases bound <;> simp [scanTokens]
  | cons t ts ih =>
      obtain ⟨ht, hplain⟩ := List.forall_mem_cons.1 h.plain
      obtain ⟨hnext, hchain⟩ := List.isChain_cons.1 h.chain
      have hrest : ∀ literal, t = .number literal → EndsNumber (ts.flatMap Token.spell) :=
        fun literal heq => Token.ends_number_of_precedes fun t' ht' => heq ▸ hnext t' ht'
      have hscan := Token.scan_spell ht hrest
      obtain ⟨c, cs, heq, hgap⟩ := Token.spell_eq_cons ht
      rw [heq] at hscan
      rw [List.flatMap_cons, heq] at hbound ⊢
      cases bound with
      | zero => simp at hbound
      | succ bound =>
          have hbound : (ts.flatMap Token.spell).length ≤ bound := by
            simp only [List.cons_append, List.length_cons, List.length_append] at hbound
            omega
          rw [List.cons_append] at hscan ⊢
          simp only [scanTokens, hgap, hscan, Bool.false_eq_true, if_false]
          rw [ih ⟨hplain, hchain⟩ hbound, List.reverse_cons, List.append_assoc,
            List.singleton_append]

/-! ## Values -/

namespace Value

/-- Induction over values: a property that passes from items to an array and from the values of
members to an object. -/
theorem induction {P : Value → Prop} (hnull : P null) (hbool : ∀ b, P (bool b))
    (hnumber : ∀ literal, P (number literal)) (hstring : ∀ content, P (string content))
    (harray : ∀ items, (∀ v ∈ items, P v) → P (array items))
    (hobject : ∀ members, (∀ m ∈ members, P m.2) → P (object members)) : ∀ v, P v
  | null => hnull
  | bool b => hbool b
  | number literal => hnumber literal
  | string content => hstring content
  | array items =>
    harray items fun v _ => induction hnull hbool hnumber hstring harray hobject v
  | object members =>
    hobject members fun m _ => induction hnull hbool hnumber hstring harray hobject m.2
decreasing_by
  all_goals
    have hsize := List.sizeOf_lt_of_mem ‹_›
    grind

variable {v : Value} {vs done : List Value} {m : Option String × Value}
  {ms doneMembers : List (Option String × Value)} {outer : List Frame} {ts : List Token}

/-- The walk over the tokens of the value comes out behind it. -/
def IsWalked (v : Value) : Prop :=
  ∀ outer ts, Position.run (.value outer) (v.tokens ++ ts) = Position.run (.after v outer) ts

/-- The walk over items comes out behind the array. -/
theorem run_items (h : ∀ w ∈ v :: vs, w.IsWalked) :
    Position.run (.value (.items done :: outer)) (itemTokens (v :: vs) ++ .closeArray :: ts) =
      Position.run (.after (.array (done.reverse ++ v :: vs)) outer) ts := by
  induction vs generalizing v done with
  | nil =>
      rw [itemTokens, h v (List.mem_cons_self ..)]
      simp [Position.run, Position.step]
  | cons w ws ih =>
      obtain ⟨hv, hws⟩ := List.forall_mem_cons.1 h
      rw [itemTokens, List.append_assoc, hv]
      · refine (ih hws).trans ?_
        rw [List.reverse_cons, List.append_assoc, List.singleton_append]
      · nofun

/-- The walk over members comes out behind the object. -/
theorem run_members (h : ∀ n ∈ m :: ms, IsWalked n.2) :
    Position.run (.memberStart doneMembers outer) (memberTokens (m :: ms) ++ .closeObject :: ts) =
      Position.run (.after (.object (doneMembers.reverse ++ m :: ms)) outer) ts := by
  induction ms generalizing m doneMembers with
  | nil =>
      rw [memberTokens, List.cons_append, List.cons_append]
      refine (h m (List.mem_cons_self ..) (.members doneMembers m.1 :: outer) _).trans ?_
      simp [Position.run, Position.step]
  | cons n ns ih =>
      obtain ⟨hm, hns⟩ := List.forall_mem_cons.1 h
      rw [memberTokens, List.append_assoc, List.cons_append, List.cons_append]
      · refine (hm (.members doneMembers m.1 :: outer) _).trans ?_
        refine (ih hns).trans ?_
        rw [List.reverse_cons, List.append_assoc, List.singleton_append]
      · nofun

/-- The first item is read like those behind a comma. -/
theorem run_array_start :
    Position.run (.arrayStart outer) (itemTokens (v :: vs) ++ ts) =
      Position.run (.value (.items [] :: outer)) (itemTokens (v :: vs) ++ ts) := by
  cases vs <;> cases v <;> rfl

/-- So is the first member. -/
theorem run_object_start :
    Position.run (.objectStart outer) (memberTokens (m :: ms) ++ ts) =
      Position.run (.memberStart [] outer) (memberTokens (m :: ms) ++ ts) := by
  cases ms <;> rfl

/-- The walk over the tokens of a value comes out behind it. -/
theorem is_walked (v : Value) : v.IsWalked := by
  induction v using Value.induction with
  | hnull | hbool | hnumber | hstring => exact fun _ _ => rfl
  | harray items ih =>
      intro outer ts
      rw [tokens, List.cons_append, List.cons_append, List.append_assoc, List.singleton_append]
      cases items with
      | nil => rfl
      | cons w ws => exact run_array_start.trans (run_items ih)
  | hobject members ih =>
      intro outer ts
      rw [tokens, List.cons_append, List.cons_append, List.append_assoc, List.singleton_append]
      cases members with
      | nil => rfl
      | cons m ms => exact run_object_start.trans (run_members ih)

theorem item_tokens_eq : itemTokens vs = [Token.comma].intercalate (vs.map tokens) := by
  induction vs with
  | nil => rfl
  | cons v vs ih =>
      cases vs with
      | nil => simp [itemTokens]
      | cons w ws =>
          rw [itemTokens, ih]
          · simp
          · nofun

theorem member_tokens_eq : memberTokens ms =
    [Token.comma].intercalate (ms.map fun m => .string m.1 :: .colon :: m.2.tokens) := by
  induction ms with
  | nil => rfl
  | cons m ms ih =>
      cases ms with
      | nil => simp [memberTokens]
      | cons n ns =>
          rw [memberTokens, ih]
          · simp
          · nofun

/-- The tokens of the value are found again in its text. -/
def IsScannable (v : Value) : Prop := Token.AreScannable v.tokens

theorem is_scannable_text {content : String} : (text content).IsScannable := .singleton trivial

theorem is_scannable_bool {b : Bool} : (bool b).IsScannable := .singleton trivial

theorem is_scannable_array (h : ∀ v ∈ vs, v.IsScannable) : (array vs).IsScannable := by
  rw [IsScannable, tokens, item_tokens_eq]
  exact .cons trivial (fun _ => trivial) (.elements (.inl rfl) (List.forall_mem_map.2 h))

theorem is_scannable_object (h : ∀ m ∈ ms, IsScannable m.2) : (object ms).IsScannable := by
  rw [IsScannable, tokens, member_tokens_eq]
  exact .cons trivial (fun _ => trivial)
    (.elements (.inr rfl) (List.forall_mem_map.2 fun m hm => .member (h m hm)))

theorem is_scannable_record {fields : List (String × Value)} (h : ∀ m ∈ fields, IsScannable m.2) :
    (record fields).IsScannable :=
  is_scannable_object (List.forall_mem_map.2 h)

/-- A value is read back from its text. -/
theorem read_write (h : v.IsScannable) : Value.read? v.write = some v := by
  have hscan : scan v.write.toList = some v.tokens := by
    rw [write, String.toList_ofList, scan]
    exact scan_tokens_spell h (Nat.le_refl _)
  have hwalk : Position.run (.value []) v.tokens = some (.after v []) := by
    simpa [Position.run] using v.is_walked [] []
  rw [read?, hscan, Option.bind_eq_bind, Option.bind_some, ofTokens?, hwalk]

/-! ## Values taken in whole -/

@[simp] theorem items_sound_eq : itemsSound vs = vs.all isSound := by
  induction vs with
  | nil => rfl
  | cons v vs ih => rw [itemsSound, List.all_cons, ih]

theorem depth_lt_of_mem_items (h : v ∈ vs) : v.depth < (array vs).depth := by
  refine Nat.lt_succ_of_le ?_
  induction vs with
  | nil => cases h
  | cons w ws ih =>
      rcases List.mem_cons.1 h with rfl | h
      · exact Nat.le_max_left ..
      · exact Nat.le_trans (ih h) (Nat.le_max_right ..)

theorem members_depth_eq : membersDepth ms = itemsDepth (ms.map (·.2)) := by
  induction ms with
  | nil => rfl
  | cons m ms ih => rw [membersDepth, ih, List.map_cons, itemsDepth]

theorem depth_lt_of_mem_members (h : m ∈ ms) : m.2.depth < (object ms).depth := by
  rw [depth, members_depth_eq]
  exact depth_lt_of_mem_items (List.mem_map_of_mem h)

section Fields

variable {fields : List (String × Value)} {key : String}

theorem depth_lt_of_mem_fields (h : (key, v) ∈ fields) : v.depth < (record fields).depth :=
  depth_lt_of_mem_members (m := (some key, v)) (List.mem_map.2 ⟨_, h, rfl⟩)

/-- The items of a field stand two containers deeper than the record. -/
theorem depth_lt_of_mem_field_items (key : String) {α : Type} {f : α → Value} {xs : List α}
    {x : α} (hx : x ∈ xs) (h : (key, array (xs.map f)) ∈ fields) :
    (f x).depth + 1 < (record fields).depth :=
  Nat.lt_of_le_of_lt (depth_lt_of_mem_items (List.mem_map_of_mem hx)) (depth_lt_of_mem_fields h)

end Fields

end Value

end Clausal.Json
