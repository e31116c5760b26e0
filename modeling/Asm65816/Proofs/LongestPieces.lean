import Asm65816.Proofs.Numerals
import Mathlib.Data.Bool.AllAny

/-!
# Longest pieces

A piece is as long as the class that reaches furthest, and a sign as long as the longest spelling.
So a piece is cut off where nothing behind it goes on with it, and no other class reaches as far.
-/

namespace Asm65816

/-! ## The longest candidate -/

section Longest

variable {α : Type} {takes : α → Prop} [DecidablePred takes] {size : α → Nat} {items : List α}

/-- The longest of the candidates that are taken; the first one where several are as long. -/
def longest? (takes : α → Prop) [DecidablePred takes] (size : α → Nat) (best : Option α)
    (items : List α) : Option α :=
  items.foldl (fun best item =>
    if takes item ∧ best.elim 0 size < size item then some item else best) best

/-- What is as long as all that follows stays the best. -/
theorem longest?_some {item : α} (h : ∀ other ∈ items, takes other → size other ≤ size item) :
    longest? takes size (some item) items = some item := by
  induction items with
  | nil => rfl
  | cons first rest ih =>
    have hfirst : ¬(takes first ∧ (some item).elim 0 size < size first) := by
      rintro ⟨htakes, hlonger⟩
      exact Nat.not_le_of_gt hlonger (h first List.mem_cons_self htakes)
    rw [longest?, List.foldl_cons, if_neg hfirst]
    exact ih fun other hother => h other (List.mem_cons_of_mem _ hother)

/-- A candidate that is longer than every other one is the longest. -/
theorem longest?_eq {item : α} (hmem : item ∈ items) (htakes : takes item)
    (hothers : ∀ other ∈ items, takes other → other = item ∨ size other < size item)
    {best : Option α} (hbest : best.elim 0 size < size item) :
    longest? takes size best items = some item := by
  induction items generalizing best with
  | nil => cases hmem
  | cons first rest ih =>
    have hrest := fun other hother => hothers other (List.mem_cons_of_mem first hother)
    rw [longest?, List.foldl_cons]
    rcases List.mem_cons.mp hmem with rfl | hlater
    · rw [if_pos ⟨htakes, hbest⟩]
      refine longest?_some fun other hother hother' => ?_
      rcases hrest other hother hother' with rfl | hshorter
      · exact Nat.le_refl _
      · exact Nat.le_of_lt hshorter
    · by_cases hfirst : takes first ∧ best.elim 0 size < size first
      · rw [if_pos hfirst]
        rcases hothers first List.mem_cons_self hfirst.1 with rfl | hshorter
        · refine longest?_some fun other hother hother' => ?_
          rcases hrest other hother hother' with rfl | hshorter
          · exact Nat.le_refl _
          · exact Nat.le_of_lt hshorter
        · exact ih hlater hrest hshorter
      · rw [if_neg hfirst]
        exact ih hlater hrest hbest

/-- The longest candidate is one of those that are taken, and not empty. -/
theorem longest?_mem {found : α} (h : longest? takes size none items = some found) :
    found ∈ items ∧ takes found ∧ 0 < size found := by
  suffices hall : ∀ best : Option α, longest? takes size best items = some found →
      best = some found ∨ found ∈ items ∧ takes found ∧ 0 < size found from
    (hall none h).resolve_left (by simp)
  clear h
  induction items with
  | nil => exact fun best hbest => .inl hbest
  | cons first rest ih =>
    intro best hbest
    rw [longest?, List.foldl_cons] at hbest
    rcases ih _ hbest with hnext | ⟨hmem, hfound⟩
    · split at hnext
      case isTrue hfirst =>
        obtain rfl := Option.some.inj hnext
        exact .inr ⟨List.mem_cons_self, hfirst.1, Nat.zero_lt_of_lt hfirst.2⟩
      case isFalse => exact .inl hnext
    · exact .inr ⟨List.mem_cons_of_mem _ hmem, hfound⟩

/-- No candidate that is taken is longer than the longest one. -/
theorem le_longest? (best : Option α) :
    best.elim 0 size ≤ (longest? takes size best items).elim 0 size ∧
      ∀ item ∈ items, takes item → size item ≤ (longest? takes size best items).elim 0 size := by
  induction items generalizing best with
  | nil => exact ⟨Nat.le_refl _, nofun⟩
  | cons first rest ih =>
    rw [longest?, List.foldl_cons]
    split
    case isTrue hfirst =>
      obtain ⟨hle, hrest⟩ := ih (some first)
      refine ⟨Nat.le_trans (Nat.le_of_lt hfirst.2) hle, ?_⟩
      exact List.forall_mem_cons.mpr ⟨fun _ => hle, hrest⟩
    case isFalse hfirst =>
      obtain ⟨hle, hrest⟩ := ih best
      refine ⟨hle, List.forall_mem_cons.mpr ⟨fun htakes => ?_, hrest⟩⟩
      exact Nat.le_trans (Nat.le_of_not_lt fun hlonger => hfirst ⟨htakes, hlonger⟩) hle

end Longest

/-- The longest sign at the start of a text is the longest of the spellings that it starts with. -/
theorem longestPunct?_eq_longest? (text : List Char) :
    longestPunct? text =
      longest? (fun spelling => spelling.1.isPrefixOf text) (fun spelling => spelling.1.length) none
        Punct.spellings :=
  rfl

namespace TokenClass

/-- The class that reaches furthest is the longest of all classes with their reach. -/
theorem furthest?_eq_longest? (input : List Char) :
    furthest? input =
      longest? (fun _ => True) Prod.snd none (all.map fun kind => (kind, kind.reach input)) := by
  simp only [longest?, List.foldl_map, true_and]
  rfl

theorem mem_all (kind : TokenClass) : kind ∈ all := by
  cases kind with
  | _ => decide

/-- A class that reaches further than every other one is chosen. -/
theorem furthest?_eq {kind : TokenClass} {input : List Char} (hpos : 0 < kind.reach input)
    (hothers : ∀ other, other ≠ kind → other.reach input < kind.reach input) :
    furthest? input = some (kind, kind.reach input) := by
  rw [furthest?_eq_longest?]
  refine longest?_eq (List.mem_map_of_mem (mem_all kind)) trivial ?_ hpos
  intro other hother _
  obtain ⟨found, -, rfl⟩ := List.mem_map.mp hother
  by_cases hfound : found = kind
  · exact .inl (hfound ▸ rfl)
  · exact .inr (hothers found hfound)

/-- The class that is chosen reaches as far as it is said to. -/
theorem reach_of_furthest? {kind : TokenClass} {input : List Char} {reached : Nat}
    (h : furthest? input = some (kind, reached)) : kind.reach input = reached ∧ 0 < reached := by
  rw [furthest?_eq_longest?] at h
  obtain ⟨hmem, -, hpos⟩ := longest?_mem h
  obtain ⟨found, -, hfound⟩ := List.mem_map.mp hmem
  cases hfound
  exact ⟨rfl, hpos⟩

end TokenClass

/-- No class reaches further than the one that is chosen. -/
theorem TokenClass.reach_le_furthest? (kind : TokenClass) (input : List Char) :
    kind.reach input ≤ (furthest? input).elim 0 Prod.snd := by
  rw [furthest?_eq_longest?]
  change (kind, kind.reach input).2 ≤ _
  refine (le_longest? none).2 (kind, kind.reach input) ?_ trivial
  exact List.mem_map_of_mem (mem_all kind)

/-- The next piece of a text is read by the class that reaches further than every other one. -/
theorem nextPiece_eq {kind : TokenClass} {piece rest : List Char} (hpiece : piece ≠ [])
    (hreach : kind.reach (piece ++ rest) = piece.length)
    (hothers : ∀ other, other ≠ kind → other.reach (piece ++ rest) < piece.length) :
    nextPiece (piece ++ rest) = (piece.length, kind.read piece) := by
  have hpos := List.length_pos_iff.mpr hpiece
  have hfurthest := TokenClass.furthest?_eq (hreach ▸ hpos) (hreach ▸ hothers)
  unfold nextPiece
  rw [hfurthest, hreach]
  dsimp only
  rw [List.take_left]

/-- No spelling that a text starts with is longer than the one that is found. -/
theorem length_le_longestPunct? {text : List Char} {spelling : List Char × Punct}
    (hmem : spelling ∈ Punct.spellings) (htakes : spelling.1.isPrefixOf text = true) :
    spelling.1.length ≤ (longestPunct? text).elim 0 fun found => found.1.length := by
  have hle := @le_longest? _ (fun spelling => spelling.1.isPrefixOf text = true) _
    (fun spelling => spelling.1.length) Punct.spellings none
  exact hle.2 spelling hmem htakes

/-- A token is what the class that was chosen reads from the characters that it reaches. -/
theorem nextPiece_token {text : List Char} {token : TokenKind}
    (h : (nextPiece text).2 = .token token) :
    ∃ kind : TokenClass, 0 < kind.reach text ∧
      kind.read (text.take (kind.reach text)) = .token token := by
  unfold nextPiece at h
  split at h
  case h_1 kind reached hfurthest =>
    obtain ⟨rfl, hpos⟩ := TokenClass.reach_of_furthest? hfurthest
    exact ⟨kind, hpos, h⟩
  case h_2 =>
    split at h
    · cases h
    · cases h

/-! ## The first character of a piece -/

namespace Punct

/-- The characters that signs start with. -/
def firsts : List Char :=
  ['(', ')', '[', ']', ',', ':', '.', '#', '=', '+', '-', '*', '/', '%', '&', '|', '^', '~', '<',
    '>', '!']

theorem mem_firsts {spelling : List Char × Punct} (h : spelling ∈ spellings) {c : Char}
    {others : List Char} (hcons : spelling.1 = c :: others) : c ∈ firsts := by
  have hall : ∀ spelling ∈ spellings, spelling.1.head?.all (· ∈ firsts) = true := by
    decide +kernel
  have hfirst := hall spelling h
  rw [hcons] at hfirst
  exact of_decide_eq_true hfirst

end Punct

namespace TokenClass

/-- The characters that a piece of the class can start with. -/
def startsWith (kind : TokenClass) (c : Char) : Bool :=
  match kind with
  | blank => isSpacing c
  | comment => c == ';' || c == '/'
  | punct => Punct.firsts.contains c
  | .text => c == '"'
  | petsciiText => c == 'p'
  | hexadecimal => c == '$' || c == '0'
  | octal => c == '&' || c == '0'
  | binary => c == '%' || c == '0'
  | decimal => isDigitIn 10 c
  | name => startsName c
  | localName => c == '@'
  | argument => c == '\\'

/-- No sign starts with a character that none of the spellings starts with. -/
theorem punct_reach_eq_zero {c : Char} (rest : List Char) (h : punct.startsWith c = false) :
    punct.reach (c :: rest) = 0 := by
  have hnone : longestPunct? (c :: rest) = none := by
    rw [longestPunct?_eq_longest?, Option.eq_none_iff_forall_ne_some]
    rintro ⟨spelling, sign⟩ hfound
    obtain ⟨hmem, hprefix, hpos⟩ := longest?_mem hfound
    obtain ⟨first, others, rfl⟩ := List.exists_cons_of_length_pos hpos
    rw [List.isPrefixOf_iff_prefix, List.cons_prefix_cons] at hprefix
    obtain ⟨rfl, -⟩ := hprefix
    exact Bool.eq_false_iff.mp h (List.contains_iff_mem.mpr (Punct.mem_firsts hmem rfl))
  rw [reach, hnone]
  rfl

theorem runLength_eq_zero {accepts : Char → Bool} {c : Char} (rest : List Char)
    (h : accepts c = false) : runLength accepts (c :: rest) = 0 := by
  rw [runLength, List.takeWhile_cons_of_neg (by simp [h])]
  rfl

/-- A class does not reach into a text that starts with none of its characters. -/
theorem reach_eq_zero {kind : TokenClass} {c : Char} (rest : List Char)
    (h : kind.startsWith c = false) : kind.reach (c :: rest) = 0 := by
  generalize htext : c :: rest = text
  unfold reach
  split
  case h_1 | h_13 =>
    subst htext
    exact runLength_eq_zero rest h
  case h_4 =>
    subst htext
    exact punct_reach_eq_zero rest h
  case h_14 =>
    cases htext
    exact if_neg (Bool.eq_false_iff.mp h)
  case h_17 => rfl
  -- Every other class is told by a character that is written out.
  all_goals
    cases htext
    cases h

/-- The characters that only one class starts with, with that class. -/
def marked : List (Char × TokenClass) :=
  [(' ', blank), ('"', text), ('@', localName), ('\\', argument)]

/-- No other class reaches into a text that starts with the mark of a class. -/
theorem reach_eq_zero_of_marked {c : Char} {kind other : TokenClass} (h : (c, kind) ∈ marked)
    (hother : other ≠ kind) (rest : List Char) : other.reach (c :: rest) = 0 := by
  have hall : ∀ mark ∈ marked, ∀ other ∈ all, other ≠ mark.2 → other.startsWith mark.1 = false := by
    decide
  exact reach_eq_zero rest (hall (c, kind) h other (mem_all other) hother)

end TokenClass

/-! ## Signs -/

namespace Punct

/-- The characters that make the mark of a comment or a literal of a sign. -/
def marksWith : Punct → Char → Bool
  | slash, c => c == '/' || c == '*'
  | ampersand, c => isDigitIn 8 c
  | percent, c => isDigitIn 2 c || c == '_'
  | _, _ => false

/-- The characters that go on from a sign to a longer one. -/
def followers : Punct → List Char
  | assign | bang => ['=']
  | star => ['*']
  | ampersand => ['&']
  | pipe => ['|']
  | less => ['>', '<', '=']
  | greater => ['>', '=']
  | _ => []

/-- The characters that do not leave a sign alone: they go on to a longer sign, or make it a
mark. -/
def goesOnWith (sign : Punct) (c : Char) : Bool := sign.followers.contains c || sign.marksWith c

variable {sign : Punct} {rest : List Char}

theorem mem_all (sign : Punct) : sign ∈ all := by
  cases sign with
  | _ => decide

theorem mem_spellings (sign : Punct) : (sign.spelling.toList, sign) ∈ spellings :=
  List.mem_cons_of_mem _ (List.mem_map_of_mem (mem_all sign))

/-- A longer spelling goes on with a follower. -/
theorem mem_followers {spelling : List Char × Punct} (h : spelling ∈ spellings) {c : Char}
    {more : List Char} (hlonger : spelling.1 = sign.spelling.toList ++ c :: more) :
    c ∈ sign.followers := by
  have hall : ∀ sign ∈ all, ∀ spelling ∈ spellings,
      sign.spelling.toList.isPrefixOf spelling.1 = true →
        (spelling.1.drop sign.spelling.toList.length).head?.all (· ∈ sign.followers) = true := by
    decide +kernel
  have hnext := hall sign (mem_all sign) spelling h
  rw [hlonger, List.drop_left] at hnext
  exact of_decide_eq_true (hnext (List.isPrefixOf_iff_prefix.mpr (List.prefix_append _ _)))

/-- A spelling stands for one sign. -/
theorem eq_of_spelling {first second : List Char × Punct} (hfirst : first ∈ spellings)
    (hsecond : second ∈ spellings) (h : first.1 = second.1) : first = second := by
  have hall : ∀ first ∈ spellings, ∀ second ∈ spellings, first.1 = second.1 → first = second := by
    decide +kernel
  exact hall first hfirst second hsecond h

/-- A sign is the longest one where nothing goes on with it. -/
theorem longestPunct?_spelling (hrest : ∀ c ∈ rest.head?, sign.goesOnWith c = false) :
    longestPunct? (sign.spelling.toList ++ rest) = some (sign.spelling.toList, sign) := by
  have hmem := mem_spellings sign
  have hpos : 0 < sign.spelling.toList.length := by
    cases sign with
    | _ => decide
  rw [longestPunct?_eq_longest?]
  refine longest?_eq hmem (List.isPrefixOf_iff_prefix.mpr (List.prefix_append _ _)) ?_ hpos
  intro other hother htakes
  have hprefix := List.isPrefixOf_iff_prefix.mp htakes
  have hown := List.prefix_append sign.spelling.toList rest
  rcases Nat.lt_trichotomy other.1.length sign.spelling.toList.length with hless | heq | hmore
  · exact .inr hless
  · have hsame := List.prefix_of_prefix_length_le hprefix hown (Nat.le_of_eq heq)
    exact .inl (eq_of_spelling hother hmem (hsame.eq_of_length heq))
  · -- A longer spelling would go on with the first character behind the sign.
    cases rest with
    | nil =>
      have hle := hprefix.length_le
      rw [List.append_nil] at hle
      omega
    | cons c others =>
      have hnext : (sign.spelling.toList ++ [c]) <+: (sign.spelling.toList ++ c :: others) :=
        ⟨others, by simp⟩
      obtain ⟨more, hmore⟩ := List.prefix_of_prefix_length_le hnext hprefix (by
        rw [List.length_append]
        exact hmore)
      rw [List.append_assoc] at hmore
      have hfollows : c ∈ sign.followers := mem_followers hother hmore.symm
      have hgoes : sign.goesOnWith c = true :=
        Bool.or_eq_true_iff.mpr (.inl (List.contains_iff_mem.mpr hfollows))
      cases (hrest c rfl).symm.trans hgoes

end Punct

theorem runAfter_eq_zero {accepts : Char → Bool} {rest : List Char} (extra : Nat)
    (h : ∀ c ∈ rest.head?, accepts c = false) : runAfter extra accepts rest = 0 := by
  cases rest with
  | nil => rfl
  | cons c others =>
    rw [runAfter, TokenClass.runLength_eq_zero others (h c rfl)]
    rfl

/-- One slash does not start a comment. -/
theorem comment_reach_eq_zero {rest : List Char} (h : ∀ c ∈ rest.head?, c ≠ '/') :
    TokenClass.comment.reach ('/' :: rest) = 0 := by
  generalize htext : '/' :: rest = text
  unfold TokenClass.reach
  split
  case h_2 => cases htext
  case h_3 =>
    cases htext
    exact absurd rfl (h _ rfl)
  case h_17 => rfl
  all_goals contradiction

/-- The classes other than signs that a sign may start: a comment, or a number. -/
theorem startsWith_of_sign {sign : Punct} {c : Char} {tail : List Char} (hsign : sign ≠ .ellipsis)
    (hspelling : sign.spelling.toList = c :: tail) {other : TokenClass} (hother : other ≠ .punct)
    (hstarts : other.startsWith c = true) :
    (other = .comment ∧ sign = .slash) ∨
      (other = .octal ∧ (sign = .ampersand ∨ sign = .ampersands)) ∨
      (other = .binary ∧ sign = .percent) := by
  have hall : ∀ sign ∈ Punct.all, sign ≠ .ellipsis → ∀ other ∈ TokenClass.all, other ≠ .punct →
      (sign.spelling.toList.head?.any other.startsWith = true) →
        (other = .comment ∧ sign = .slash) ∨
          (other = .octal ∧ (sign = .ampersand ∨ sign = .ampersands)) ∨
          (other = .binary ∧ sign = .percent) := by
    decide +kernel
  refine hall sign sign.mem_all hsign other other.mem_all hother ?_
  rw [hspelling]
  exact hstarts

/-- A sign is a piece where nothing goes on with it. -/
theorem nextPiece_punct {sign : Punct} {rest : List Char} (hsign : sign ≠ .ellipsis)
    (hrest : ∀ c ∈ rest.head?, sign.goesOnWith c = false) :
    nextPiece (sign.spelling.toList ++ rest) =
      (sign.spelling.toList.length, .token (.punct sign)) := by
  have hlongest := Punct.longestPunct?_spelling hrest
  have halone : longestPunct? (sign.spelling.toList ++ []) = some (sign.spelling.toList, sign) :=
    Punct.longestPunct?_spelling nofun
  rw [List.append_nil] at halone
  have hmarks : ∀ c ∈ rest.head?, sign.marksWith c = false := fun c hc =>
    (Bool.or_eq_false_iff.mp (hrest c hc)).2
  obtain ⟨c, tail, hspelling⟩ : ∃ c tail, sign.spelling.toList = c :: tail := by
    cases sign with
    | _ => exact ⟨_, _, rfl⟩
  have hreads : TokenClass.punct.read sign.spelling.toList = .token (.punct sign) := by
    rw [TokenClass.read, halone]
  rw [← hreads]
  refine nextPiece_eq (by simp [hspelling]) ?_ ?_
  · rw [TokenClass.reach, hlongest]
    rfl
  · intro other hother
    have hzero : other.reach (sign.spelling.toList ++ rest) = 0 := by
      cases hstarts : other.startsWith c with
      | false =>
        rw [hspelling]
        exact TokenClass.reach_eq_zero _ hstarts
      | true =>
        rcases startsWith_of_sign hsign hspelling hother hstarts with
          ⟨rfl, rfl⟩ | ⟨rfl, rfl | rfl⟩ | ⟨rfl, rfl⟩
        · refine comment_reach_eq_zero fun c hc => ?_
          exact beq_eq_false_iff_ne.mp (Bool.or_eq_false_iff.mp (hmarks c hc)).1
        · exact runAfter_eq_zero 1 hmarks
        · have hsecond : runAfter 1 (isDigitIn 8) ('&' :: rest) = 0 := by
            refine runAfter_eq_zero 1 fun c hc => ?_
            cases hc
            rfl
          exact hsecond
        · exact runAfter_eq_zero 1 hmarks
    rw [hzero, hspelling]
    exact Nat.succ_pos _

end Asm65816
