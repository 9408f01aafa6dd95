import AdaptiveLL.Proofs.Token.Input
import Mathlib.Data.Nat.Find
import Mathlib.Logic.Function.Iterate

/-!
# Moves over inputs

An input that is *in use* has been made of tokens and then moved over them (`Input.IsInUse`). It
stands before one of its tokens, of which the last one ends it (`IsInUse.isEnded`), so to go back
to where it has stood is exact (`IsInUse.seek_position`), and to consume some tokens is to go on to
the next end token at most (`IsInUse.exists_iterate_consume`).

In whatever way an input is moved, it stands over the tokens that it was made of
(`Input.after_standsOver`). To look ahead gives the token at the place looked at, or the last one
behind the end, as long as the place is a word. Behind that, places begin again at zero, and an
earlier token is found (`Input.look_wraps`).
-/

namespace AdaptiveLL

namespace Input

/-- The inputs that come about from tokens by moving over them. -/
inductive IsInUse : Input → Prop
  | ofList (tokens : List Token) : IsInUse (.ofList tokens)
  | seek {s : Input} (i : Nat) : s.IsInUse → (s.seek i).IsInUse
  | consume {s : Input} : s.IsInUse → s.consume.IsInUse

variable {s t : Input} {e k : Nat}

theorem tokens_consume (s : Input) : s.consume.tokens = s.tokens := by
  rw [consume]
  split <;> rfl

theorem get_of_tokens (ht : t.tokens = s.tokens) (i : Nat) : t.get i = s.get i := by
  rw [get, get, last, last, ht]

/-- The numbers of the tokens do not depend on how far an input is consumed. -/
theorem IsNumbered.of_tokens (h : s.IsNumbered) (ht : t.tokens = s.tokens) : t.IsNumbered := by
  intro i hi
  rw [size, ht] at hi
  rw [get_of_tokens ht, h i hi]

theorem IsNumbered.index_current (h : s.IsNumbered) (hended : s.IsEnded) :
    s.current.index = s.position :=
  h s.position hended.position_lt

/-- Behind the end there are only last tokens. -/
theorem get_eq_get_min (hsize : 0 < s.size) (i : Nat) : s.get i = s.get (min i (s.size - 1)) := by
  obtain hlt | hge := lt_or_ge i s.size
  · rw [min_eq_left (by omega)]
  · have hlast : s.tokens[s.size - 1]? = s.tokens.back? := (Array.back?_eq_getElem? ..).symm
    rw [min_eq_right (by omega), get, get, hlast, Array.getElem?_eq_none hge, Option.getD_none,
      last]
    cases s.tokens.back? <;> rfl

/-! ## Where end tokens are -/

/-- The first end token from where an input stands is at a place. -/
structure EndsFirstAt (s : Input) (e : Nat) : Prop where
  ahead : s.position ≤ e
  lt_size : e < s.size
  isEnd : (s.get e).isEnd = true
  first : ∀ i, s.position ≤ i → i < e → (s.get i).isEnd = false

/-- Some tokens are consumed up to the next end token. -/
theorem EndsFirstAt.iterate_consume (h : s.EndsFirstAt e) (n : Nat) :
    consume^[n] s = { s with position := min (s.position + n) e } := by
  induction n with
  | zero => rw [Function.iterate_zero_apply, Nat.add_zero, min_eq_left h.ahead]
  | succ n ih =>
    rw [Function.iterate_succ_apply', ih, consume]
    obtain hlt | hge := lt_or_ge (s.position + n) e
    · -- The next token does not end the input.
      have hnext : min (s.position + (n + 1)) e = s.position + n + 1 := by omega
      rw [min_eq_left (Nat.le_of_lt hlt), hnext]
      exact if_neg (Bool.eq_false_iff.1 (h.first _ (Nat.le_add_right _ _) hlt))
    · have hstay : min (s.position + (n + 1)) e = e := by omega
      rw [min_eq_right hge, hstay]
      exact if_pos h.isEnd

namespace IsInUse

theorem ofTypes (types : List Int) : (Input.ofTypes types).IsInUse :=
  .ofList _

/-- An input in use stands before one of its tokens, of which the last one ends it and each is
    numbered by its place. -/
theorem isEnded (h : s.IsInUse) : s.IsEnded ∧ s.last.isEnd = true ∧ s.IsNumbered := by
  induction h with
  | ofList tokens =>
    exact ⟨isEnded_ofList tokens, (last_ofList tokens).2, isNumbered_ofList tokens⟩
  | @seek s i _ ih =>
    obtain ⟨hended, hlast, hnumbered⟩ := ih
    refine ⟨isEnded_of_last ?_ hlast, hlast, hnumbered.of_tokens rfl⟩
    have hsize := hended.position_lt
    show (if i < s.size then i else s.size - 1) < s.size
    split <;> omega
  | @consume s _ ih =>
    obtain ⟨hended, hlast, hnumbered⟩ := ih
    refine ⟨hended.consume, ?_, hnumbered.of_tokens s.tokens_consume⟩
    rw [last, tokens_consume]
    exact hlast

/-- To go back to where an input has stood undoes all moves over its tokens. -/
theorem seek_position (h : s.IsInUse) (ht : t.tokens = s.tokens) : t.seek s.position = s := by
  have hlt : s.position < t.size := by
    rw [size, ht]
    exact h.isEnded.1.position_lt
  rw [Input.seek, if_pos hlt, ht]

/-- The last token is found at its place, and behind it. -/
theorem isEnd_get (h : s.IsInUse) {i : Nat} (hi : s.size ≤ i + 1) : (s.get i).isEnd = true := by
  obtain ⟨hended, hlast, _⟩ := h.isEnded
  have hsize := hended.position_lt
  have hget : s.get i = s.get s.size := by
    rw [get_eq_get_min (by omega) i, get_eq_get_min (by omega) s.size, min_eq_right (by omega),
      min_eq_right (by omega)]
  rwa [hget, get, size, Array.getElem?_eq_none le_rfl, Option.getD_none]

/-- From where an input in use stands, there is an end token. -/
theorem exists_endsFirstAt (h : s.IsInUse) : ∃ e, s.EndsFirstAt e := by
  have hlt := h.isEnded.1.position_lt
  have hexists : ∃ e, s.position ≤ e ∧ e < s.size ∧ (s.get e).isEnd = true :=
    ⟨s.size - 1, by omega, by omega, h.isEnd_get (by omega)⟩
  obtain ⟨hahead, hsize, hend⟩ := Nat.find_spec hexists
  refine ⟨Nat.find hexists, hahead, hsize, hend, fun i hi hlt => ?_⟩
  have hnot := Nat.find_min hexists hlt
  exact Bool.eq_false_iff.2 fun he => hnot ⟨hi, Nat.lt_trans hlt hsize, he⟩

/-- To look ahead gives the token at the place looked at, or the last one, if this place is a
    word. -/
theorem look_eq (h : s.IsInUse) (hk : 1 ≤ k) (hword : s.position + k ≤ wordSize) :
    s.look k = s.get (min (s.position + k - 1) (s.size - 1)) := by
  have hsize : 0 < s.size := Nat.zero_lt_of_lt h.isEnded.1.position_lt
  rw [look, if_neg (by omega), lookFrom, Nat.mod_eq_of_lt (by omega), ← get_eq_get_min hsize]

end IsInUse

/-- If the place looked at is no word, a token before the current one is found. -/
theorem look_of_wrap (hword : s.position ≤ wordSize) (hk : k < wordSize)
    (hwrap : wordSize < s.position + k) :
    s.look k = s.get (s.position + k - 1 - wordSize) ∧
      s.position + k - 1 - wordSize < s.position := by
  refine ⟨?_, by omega⟩
  rw [look, if_neg (by omega), lookFrom, Nat.mod_eq_sub_mod (by omega),
    Nat.mod_eq_of_lt (by omega)]

/-! ## Moves -/

/-- A move over the tokens of an input. -/
inductive Move
  | consume
  /-- Goes to a place, which need not exist. -/
  | seek (i : Nat)
  /-- Takes down the place and stays there. -/
  | mark
  /-- Goes back to a place that was taken down, or to any other one. -/
  | rewind (marker : Nat)

/-- The input after a move. -/
def move (s : Input) : Move → Input
  | .consume => s.consume
  | .seek i => s.seek i
  | .mark => s
  | .rewind marker => s.seek marker

/-- The input after some moves. -/
def after (s : Input) (moves : List Move) : Input :=
  moves.foldl move s

theorem tokens_after (s : Input) (moves : List Move) : (s.after moves).tokens = s.tokens := by
  induction moves generalizing s with
  | nil => rfl
  | cons m rest ih =>
    have hmove : (s.move m).tokens = s.tokens := by
      cases m with
      | consume => exact s.tokens_consume
      | _ => rfl
    exact (ih (s.move m)).trans hmove

theorem IsInUse.after (h : s.IsInUse) (moves : List Move) : (s.after moves).IsInUse := by
  induction moves generalizing s with
  | nil => exact h
  | cons m rest ih =>
    cases m with
    | consume => exact ih h.consume
    | seek i => exact ih (h.seek i)
    | mark => exact ih h
    | rewind marker => exact ih (h.seek marker)

/-- An input stands before one of some tokens. Its tokens are these and maybe one more that ends
    them, each numbered by its place. From where it stands it can be moved on up to an end token,
    and moved back; and it can be looked ahead, to words. -/
structure StandsOver (s : Input) (tokens : List Token) : Prop where
  stored : ∃ rest, s.tokens.toList = (tokens ++ rest).mapIdx (fun i t => { t with index := i }) ∧
    rest.length ≤ 1
  ends : s.last.isEnd = true
  numbered : s.IsNumbered
  position_lt : s.position < s.size
  consume_of_end : s.current.isEnd = true → s.consume = s
  consume : s.current.isEnd = false → s.consume = { s with position := s.position + 1 }
  consumes : ∃ e, s.EndsFirstAt e ∧
    ∀ n, Input.consume^[n] s = { s with position := min (s.position + n) e }
  rewinds : ∀ moves, (s.after moves).move (.rewind s.position) = s
  looks : ∀ k, 1 ≤ k → s.position + k ≤ wordSize →
    s.look k = s.get (min (s.position + k - 1) (s.size - 1))
  looks_end : ∀ k, s.size < s.position + k → s.position + k ≤ wordSize →
    (s.look k).isEnd = true
  wraps : s.size ≤ wordSize → ∀ k < wordSize, wordSize < s.position + k →
    s.look k = s.get (s.position + k - 1 - wordSize) ∧
      s.position + k - 1 - wordSize < s.position

/-- However it is moved, an input stands over the tokens that it was made of. -/
theorem after_standsOver (tokens : List Token) (moves : List Move) :
    ((ofList tokens).after moves).StandsOver tokens := by
  have htokens := tokens_after (ofList tokens) moves
  have h := (IsInUse.ofList tokens).after moves
  generalize (ofList tokens).after moves = s at htokens h
  obtain ⟨hended, hlast, hnumbered⟩ := h.isEnded
  have hlt := hended.position_lt
  constructor
  case stored =>
    obtain ⟨rest, hrest, hlen⟩ : ∃ rest, ended tokens = tokens ++ rest ∧ rest.length ≤ 1 := by
      rw [ended]
      split
      · next hnone =>
        rw [List.getLast?_eq_none_iff.1 hnone]
        exact ⟨_, rfl, le_rfl⟩
      · next last _ =>
        split
        · exact ⟨[], (List.append_nil _).symm, Nat.zero_le 1⟩
        · exact ⟨[last.endAfter], rfl, le_rfl⟩
    exact ⟨rest, by rw [htokens, ofList, hrest], hlen⟩
  case ends => exact hlast
  case numbered => exact hnumbered
  case position_lt => exact hlt
  case consume_of_end => exact fun hend => if_pos hend
  case consume => exact fun hend => if_neg (Bool.eq_false_iff.1 hend)
  case consumes => exact h.exists_endsFirstAt.imp fun e he => ⟨he, he.iterate_consume⟩
  case rewinds => exact fun moves => h.seek_position (tokens_after s moves)
  case looks => exact fun k => h.look_eq
  case looks_end =>
    intro k hk hword
    rw [h.look_eq (by omega) hword]
    exact h.isEnd_get (by omega)
  case wraps => exact fun hsize k => look_of_wrap (by omega)

/-- Before the end token behind two tokens, to look ahead by the greatest word finds the first
    one of them. -/
theorem look_wraps :
    ∃ (s : Input) (k : Nat), s = (ofTypes [1, 2]).after [.consume, .consume] ∧ 1 ≤ k ∧
      k < wordSize ∧ s.size - 1 ≤ s.position + k - 1 ∧
      s.look k ≠ s.get (min (s.position + k - 1) (s.size - 1)) ∧ (s.look k).isEnd = false :=
  ⟨_, wordSize - 1, rfl, by decide⟩

end Input

end AdaptiveLL
