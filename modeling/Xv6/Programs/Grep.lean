import Xv6.Lib.Prog

/-! The matcher of `grep`: what its expressions stand for. -/

namespace Xv6.Grep

/-- `'^'` -/
def caret : UInt8 := 94

/-- `'$'` -/
def dollar : UInt8 := 36

/-- `'*'` -/
def asterisk : UInt8 := 42

/-- `'.'` -/
def dot : UInt8 := 46

/-- Search for a starred character and what follows it at the beginning of a text. -/
def matchstar (c : UInt8) (rest : List UInt8 → Bool) : List UInt8 → Bool
  -- At the end of the text the loop ends after its first turn.
  | [] => rest []
  | t :: text => rest (t :: text) || ((t == c || c == dot) && matchstar c rest text)

/-- Search for an expression at the beginning of a text. -/
def matchhere : List UInt8 → List UInt8 → Bool
  | [], _ => true
  -- The last character is not starred.
  | [c], text =>
    if c = dollar then text.isEmpty
    else match text with
      | [] => false
      | t :: _ => c == dot || c == t
  | c :: next :: re, text =>
    if next = asterisk then matchstar c (matchhere re) text
    else match text with
      | [] => false
      | t :: text => (c == dot || c == t) && matchhere (next :: re) text

/-- Search for an expression at the beginning of every rest of a text, the empty one included. -/
def matchAnywhere (re : List UInt8) : List UInt8 → Bool
  | [] => matchhere re []
  | t :: text => matchhere re (t :: text) || matchAnywhere re text

/-- Search for an expression in a text. -/
def matchRe : List UInt8 → List UInt8 → Bool
  | [], text => matchAnywhere [] text
  | c :: re, text => if c = caret then matchhere re text else matchAnywhere (c :: re) text

/-- A character of an expression that is matched, with its star if it has one. -/
structure Item where
  char : UInt8
  starred : Bool
  deriving DecidableEq, Repr

/-- An expression: its items, and whether it is bound to the beginning and to the end. -/
structure Pattern where
  start : Bool
  items : List Item
  finish : Bool
  deriving DecidableEq, Repr

/-- The items from a place on, and whether a last `'$'` binds them to the end. -/
def readItems : List UInt8 → List Item × Bool
  | [] => ([], false)
  | [c] => if c = dollar then ([], true) else ([⟨c, false⟩], false)
  | c :: next :: re =>
    -- A star belongs to the character before it, whatever that is.
    if next = asterisk then (⟨c, true⟩ :: (readItems re).1, (readItems re).2)
    else (⟨c, false⟩ :: (readItems (next :: re)).1, (readItems (next :: re)).2)

/-- The expression a string stands for. -/
def readPattern : List UInt8 → Pattern
  | [] => ⟨false, [], false⟩
  | c :: re =>
    if c = caret then ⟨true, (readItems re).1, (readItems re).2⟩
    else ⟨false, (readItems (c :: re)).1, (readItems (c :: re)).2⟩

/-- An item as it is written. -/
def Item.spell (item : Item) : List UInt8 :=
  if item.starred then [item.char, asterisk] else [item.char]

/-- An expression as it is written. -/
def Pattern.spell (pattern : Pattern) : List UInt8 :=
  (if pattern.start then [caret] else []) ++ pattern.items.flatMap Item.spell ++
    (if pattern.finish then [dollar] else [])

/-- A character an item stands for. -/
def Item.Accepts (item : Item) (c : UInt8) : Prop := item.char = dot ∨ item.char = c

/-- A piece of text an item stands for. -/
def Item.Matches (item : Item) (piece : List UInt8) : Prop :=
  if item.starred then ∀ c ∈ piece, item.Accepts c else ∃ c, piece = [c] ∧ item.Accepts c

/-- A text that splits into consecutive pieces for the items in order. -/
inductive Splits : List Item → List UInt8 → Prop where
  | nil : Splits [] []
  | cons {item : Item} {items : List Item} {piece text : List UInt8} (first : item.Matches piece)
      (rest : Splits items text) : Splits (item :: items) (piece ++ text)

/-- A text has a part that an expression stands for, at the ends it is bound to. -/
def Pattern.Occurs (pattern : Pattern) (text : List UInt8) : Prop :=
  ∃ before part after, text = before ++ part ++ after ∧ (pattern.start = true → before = []) ∧
    (pattern.finish = true → after = []) ∧ Splits pattern.items part

section Items

variable {items : List Item} {text : List UInt8}

theorem splits_nil_iff : Splits [] text ↔ text = [] := by
  constructor
  · intro splits
    cases splits
    rfl
  · rintro rfl
    exact .nil

theorem splits_cons_iff {c : UInt8} :
    Splits (⟨c, false⟩ :: items) text ↔
      ∃ t rest, text = t :: rest ∧ (c = dot ∨ c = t) ∧ Splits items rest := by
  constructor
  · intro splits
    cases splits with
    | cons first rest =>
      obtain ⟨t, rfl, accepts⟩ := first
      exact ⟨t, _, rfl, accepts, rest⟩
  · rintro ⟨t, rest, rfl, accepts, splits⟩
    have one : Item.Matches ⟨c, false⟩ [t] := ⟨t, rfl, accepts⟩
    exact .cons one splits

theorem splits_star_iff {c : UInt8} :
    Splits (⟨c, true⟩ :: items) text ↔ Splits items text ∨
      ∃ t rest, text = t :: rest ∧ (c = dot ∨ c = t) ∧ Splits (⟨c, true⟩ :: items) rest := by
  constructor
  · intro splits
    cases splits with
    | @cons _ _ piece text first rest =>
      cases piece with
      | nil => exact .inl rest
      | cons t piece =>
        -- The piece without its first character is a piece of the same item.
        have accepts : ∀ d ∈ t :: piece, Item.Accepts ⟨c, true⟩ d := first
        have shorter : Item.Matches ⟨c, true⟩ piece :=
          fun d member => accepts d (List.mem_cons_of_mem t member)
        exact .inr ⟨t, piece ++ text, rfl, accepts t List.mem_cons_self, .cons shorter rest⟩
  · rintro (rest | ⟨t, rest, rfl, accepts, splits⟩)
    · have empty : Item.Matches ⟨c, true⟩ [] := fun d member => absurd member List.not_mem_nil
      exact .cons empty rest
    · cases splits with
      | @cons _ _ piece tail first rest =>
        have all : ∀ d ∈ piece, Item.Accepts ⟨c, true⟩ d := first
        have longer : Item.Matches ⟨c, true⟩ (t :: piece) := by
          intro d member
          rcases List.mem_cons.mp member with rfl | member
          · exact accepts
          · exact all d member
        exact .cons longer rest

end Items

/-- A beginning of a text that items stand for, which is all of it when they are bound to the
end. -/
def Begins (items : List Item) (finish : Bool) (text : List UInt8) : Prop :=
  ∃ part after, text = part ++ after ∧ (finish = true → after = []) ∧ Splits items part

section Beginnings

variable {items : List Item} {finish : Bool} {text : List UInt8}

theorem begins_nil_iff : Begins [] finish text ↔ (finish = true → text = []) := by
  constructor
  · rintro ⟨part, after, rfl, bound, splits⟩ isBound
    rw [splits_nil_iff.mp splits, bound isBound]
    rfl
  · exact fun bound => ⟨[], text, rfl, bound, .nil⟩

theorem begins_cons_iff {c : UInt8} :
    Begins (⟨c, false⟩ :: items) finish text ↔
      ∃ t rest, text = t :: rest ∧ (c = dot ∨ c = t) ∧ Begins items finish rest := by
  constructor
  · rintro ⟨part, after, rfl, bound, splits⟩
    obtain ⟨t, rest, rfl, accepts, splits⟩ := splits_cons_iff.mp splits
    exact ⟨t, rest ++ after, rfl, accepts, rest, after, rfl, bound, splits⟩
  · rintro ⟨t, rest, rfl, accepts, part, after, rfl, bound, splits⟩
    exact ⟨t :: part, after, rfl, bound, splits_cons_iff.mpr ⟨t, part, rfl, accepts, splits⟩⟩

theorem begins_star_iff {c : UInt8} :
    Begins (⟨c, true⟩ :: items) finish text ↔ Begins items finish text ∨
      ∃ t rest, text = t :: rest ∧ (c = dot ∨ c = t) ∧
        Begins (⟨c, true⟩ :: items) finish rest := by
  constructor
  · rintro ⟨part, after, rfl, bound, splits⟩
    rcases splits_star_iff.mp splits with splits | ⟨t, rest, rfl, accepts, splits⟩
    · exact .inl ⟨part, after, rfl, bound, splits⟩
    · exact .inr ⟨t, rest ++ after, rfl, accepts, rest, after, rfl, bound, splits⟩
  · rintro (⟨part, after, rfl, bound, splits⟩ | ⟨t, rest, rfl, accepts, part, after, rfl, bound, splits⟩)
    · exact ⟨part, after, rfl, bound, splits_star_iff.mpr (.inl splits)⟩
    · refine ⟨t :: part, after, rfl, bound, splits_star_iff.mpr (.inr ?_)⟩
      exact ⟨t, part, rfl, accepts, splits⟩

end Beginnings

theorem matchstar_iff {c : UInt8} {items : List Item} {finish : Bool} {rest : List UInt8 → Bool}
    (follows : ∀ text, rest text = true ↔ Begins items finish text) (text : List UInt8) :
    matchstar c rest text = true ↔ Begins (⟨c, true⟩ :: items) finish text := by
  -- Each turn of the loop takes one more character for the star.
  induction text with
  | nil =>
    rw [matchstar, begins_star_iff, follows]
    simp
  | cons t text ih =>
    rw [matchstar, begins_star_iff, Bool.or_eq_true, Bool.and_eq_true, follows, ih]
    have accepts : (t == c || c == dot) = true ↔ c = dot ∨ c = t := by
      simp only [Bool.or_eq_true, beq_iff_eq]
      rw [or_comm, eq_comm (a := t)]
    simp [accepts]

theorem matchhere_iff (re : List UInt8) : ∀ text,
    matchhere re text = true ↔ Begins (readItems re).1 (readItems re).2 text := by
  induction re using readItems.induct with
  | case1 =>
    simp [matchhere, readItems, begins_nil_iff]
  | case2 =>
    simp [matchhere, readItems, begins_nil_iff]
  | case3 c other =>
    intro text
    -- The last character takes one of the text, and the rest does not matter.
    cases text <;> simp [matchhere, readItems, other, begins_cons_iff, begins_nil_iff]
  | case4 c re ih =>
    intro text
    exact matchstar_iff ih text
  | case5 c next re unstarred ih =>
    intro text
    cases text <;> simp [matchhere, readItems, unstarred, begins_cons_iff, ih]

theorem matchAnywhere_iff (re : List UInt8) (text : List UInt8) :
    matchAnywhere re text = true ↔
      ∃ before rest, text = before ++ rest ∧ Begins (readItems re).1 (readItems re).2 rest := by
  induction text with
  | nil => simp [matchAnywhere, matchhere_iff]
  | cons t text ih =>
    rw [matchAnywhere, Bool.or_eq_true, matchhere_iff, ih]
    constructor
    · rintro (begins | ⟨before, rest, rfl, begins⟩)
      · exact ⟨[], t :: text, rfl, begins⟩
      · exact ⟨t :: before, rest, rfl, begins⟩
    · rintro ⟨before, rest, split, begins⟩
      cases before with
      | nil =>
        obtain rfl : t :: text = rest := split
        exact .inl begins
      | cons b before =>
        obtain ⟨rfl, rfl⟩ := List.cons.inj split
        exact .inr ⟨before, rest, rfl, begins⟩

theorem spell_readItems (re : List UInt8) :
    (readItems re).1.flatMap Item.spell ++ (if (readItems re).2 then [dollar] else []) = re := by
  induction re using readItems.induct with
  | case1 => simp [readItems]
  | case2 => simp [readItems]
  | case3 c other => simp [readItems, other, Item.spell]
  | case4 c re ih =>
    simp only [readItems, if_true, List.flatMap_cons, List.append_assoc, ih]
    rfl
  | case5 c next re unstarred ih =>
    simp only [readItems, if_neg unstarred, List.flatMap_cons, List.append_assoc, ih]
    rfl

/-- A text matches exactly when the expression, which is written as the string is, occurs in it. -/
theorem matchRe_iff (re text : List UInt8) :
    (readPattern re).spell = re ∧ (matchRe re text = true ↔ (readPattern re).Occurs text) := by
  have anywhere : ∀ items finish, (∃ before rest, text = before ++ rest ∧ Begins items finish rest) ↔
      (Pattern.mk false items finish).Occurs text := by
    intro items finish
    constructor
    · rintro ⟨before, rest, rfl, part, after, rfl, bound, splits⟩
      exact ⟨before, part, after, by simp, nofun, bound, splits⟩
    · rintro ⟨before, part, after, rfl, -, bound, splits⟩
      exact ⟨before, part ++ after, by simp, part, after, rfl, bound, splits⟩
  have fromStart : ∀ items finish, Begins items finish text ↔
      (Pattern.mk true items finish).Occurs text := by
    intro items finish
    constructor
    · rintro ⟨part, after, rfl, bound, splits⟩
      exact ⟨[], part, after, rfl, fun _ => rfl, bound, splits⟩
    · rintro ⟨before, part, after, rfl, start, bound, splits⟩
      rw [start rfl]
      exact ⟨part, after, rfl, bound, splits⟩
  cases re with
  | nil =>
    refine ⟨rfl, ?_⟩
    rw [matchRe, matchAnywhere_iff, readPattern]
    exact anywhere _ _
  | cons c re =>
    by_cases bound : c = caret
    · subst bound
      simp only [readPattern, if_true, Pattern.spell]
      refine ⟨?_, (matchhere_iff re text).trans (fromStart _ _)⟩
      rw [List.append_assoc, spell_readItems]
      rfl
    · simp only [matchRe, readPattern, if_neg bound, Pattern.spell]
      refine ⟨?_, (matchAnywhere_iff (c :: re) text).trans (anywhere _ _)⟩
      rw [List.append_assoc, spell_readItems]
      rfl

/-- `'a.*b$'` in `'xaccb'`, and not in `'xacc'`. -/
example : matchRe [97, 46, 42, 98, 36] [120, 97, 99, 99, 98] = true ∧
    matchRe [97, 46, 42, 98, 36] [120, 97, 99, 99] = false := by decide

end Xv6.Grep
