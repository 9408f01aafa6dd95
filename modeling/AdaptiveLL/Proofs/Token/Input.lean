import AdaptiveLL.Token.Input

/-!
# Inputs that end

An input *ends* if the tokens ahead do so by an end token (`Input.IsEnded`). The
inputs made from tokens end, wherever they are read from (`isEnded_ofList`,
`isEnded_seek`), and still do when a token is consumed (`IsEnded.consume`).

What is ahead of an input spells a word, the types of the tokens up to its end
(`Token.word`); consuming a token takes the first type away
(`IsEnded.current_of_word`).
-/

namespace AdaptiveLL

namespace Token

/-- The types of some tokens up to the end of the input. -/
def word (tokens : List Token) : List Int :=
  (tokens.takeWhile fun t => !t.isEnd).map type

theorem isEnd_iff {t : Token} : t.isEnd = true ↔ t.type = endOfInput :=
  beq_iff_eq

theorem word_cons {t : Token} (h : t.type ≠ endOfInput) (rest : List Token) :
    word (t :: rest) = t.type :: word rest := by
  rw [word, List.takeWhile_cons_of_pos (by simp [isEnd, h])]
  rfl

theorem word_cons_of_end {t : Token} (h : t.type = endOfInput) (rest : List Token) :
    word (t :: rest) = [] := by
  rw [word, List.takeWhile_cons_of_neg (by simp [isEnd, h])]
  rfl

end Token

namespace Input

/-- The input of tokens of some types. -/
def ofTypes (types : List Int) : Input :=
  .ofList (types.map fun type => { type, text := "", line := 1, column := 0 })

/-- The tokens ahead end by an end token. -/
def IsEnded (s : Input) : Prop :=
  ∃ t ∈ s.ahead, t.isEnd = true

theorem exists_isEnd_throughEnd {l : List Token} (h : ∃ t ∈ l, t.isEnd = true) :
    ∃ t ∈ throughEnd l, t.isEnd = true := by
  induction l with
  | nil => exact h
  | cons t rest ih =>
    rw [throughEnd]
    split
    · next ht => exact ⟨t, List.mem_singleton.2 rfl, ht⟩
    · next ht =>
      obtain ⟨t', ht', hend⟩ := h
      rcases List.mem_cons.1 ht' with rfl | ht'
      · exact absurd hend ht
      · obtain ⟨e, he, hend⟩ := ih ⟨t', ht', hend⟩
        exact ⟨e, List.mem_cons_of_mem _ he, hend⟩

/-- An input whose last token is an end token ends, wherever it is read from. -/
theorem isEnded_of_last {s : Input} (hpos : s.position < s.size) (hlast : s.last.isEnd = true) :
    s.IsEnded := by
  -- The last token is among those that are left.
  refine exists_isEnd_throughEnd ⟨s.last, ?_, hlast⟩
  have hlen : s.position < s.tokens.toList.length := hpos
  have hne : s.tokens.toList.drop s.position ≠ [] := by
    rw [ne_eq, List.drop_eq_nil_iff]
    omega
  have hback : s.last = (s.tokens.toList.drop s.position).getLast hne := by
    rw [last, Array.back?_eq_getElem?, ← Array.getElem?_toList, List.getLast_drop,
      ← Array.length_toList, ← List.getLast?_eq_getElem?, List.getLast?_eq_some_getLast,
      Option.getD_some]
  rw [hback]
  exact List.getLast_mem hne

theorem ended_eq_append (tokens : List Token) :
    ∃ l t, ended tokens = l ++ [t] ∧ t.isEnd = true := by
  rw [ended]
  split
  · exact ⟨[], _, rfl, rfl⟩
  · next last hlast =>
    split
    · next hend =>
      obtain ⟨l, rfl⟩ := List.getLast?_eq_some_iff.1 hlast
      exact ⟨l, last, rfl, hend⟩
    · exact ⟨tokens, last.endAfter, rfl, rfl⟩

/-- An input that consists of some tokens has an end token behind them. -/
theorem last_ofList (tokens : List Token) :
    0 < (ofList tokens).size ∧ (ofList tokens).last.isEnd = true := by
  obtain ⟨l, t, hended, ht⟩ := ended_eq_append tokens
  have htokens : (ofList tokens).tokens =
      (l.mapIdx fun i t => { t with index := i }).toArray.push { t with index := l.length } := by
    rw [ofList, hended, List.mapIdx_append]
    simp
  refine ⟨?_, ?_⟩
  · rw [size, htokens, Array.size_push]
    omega
  · rw [last, htokens, Array.back?_push]
    exact ht

theorem isEnded_seek (tokens : List Token) (i : Nat) : ((ofList tokens).seek i).IsEnded := by
  obtain ⟨hsize, hlast⟩ := last_ofList tokens
  refine isEnded_of_last ?_ hlast
  show (if i < (ofList tokens).size then i else (ofList tokens).size - 1) < (ofList tokens).size
  split
  · assumption
  · omega

theorem isEnded_ofList (tokens : List Token) : (ofList tokens).IsEnded := by
  obtain ⟨hsize, hlast⟩ := last_ofList tokens
  exact isEnded_of_last hsize hlast

/-- The tokens from one place up to another. -/
def between (s : Input) (i j : Nat) : List Token :=
  (List.range' i (j - i)).map s.get

theorem between_self (s : Input) (i : Nat) : s.between i i = [] := by
  rw [between, Nat.sub_self]
  rfl

theorem between_of_lt (s : Input) {i j : Nat} (h : i < j) :
    s.between i j = s.get i :: s.between (i + 1) j := by
  obtain ⟨k, rfl⟩ := Nat.exists_eq_add_of_lt h
  have hlen : i + k + 1 - i = k + 1 := by omega
  have hlen' : i + k + 1 - (i + 1) = k := by omega
  rw [between, between, hlen, hlen', List.range'_succ, List.map_cons]

theorem between_append (s : Input) {i j k : Nat} (hij : i ≤ j) (hjk : j ≤ k) :
    s.between i j ++ s.between j k = s.between i k := by
  obtain ⟨m, rfl⟩ := Nat.exists_eq_add_of_le hij
  obtain ⟨n, rfl⟩ := Nat.exists_eq_add_of_le hjk
  have hm : i + m - i = m := by omega
  have hn : i + m + n - (i + m) = n := by omega
  have hmn : i + m + n - i = m + n := by omega
  rw [between, between, between, ← List.map_append, hm, hn, hmn, List.range'_append_1]

theorem between_succ (s : Input) {i j : Nat} (h : i ≤ j) :
    s.between i (j + 1) = s.between i j ++ [s.get j] := by
  rw [← s.between_append h (Nat.le_succ j), s.between_of_lt (Nat.lt_succ_self j), between_self]

theorem length_throughEnd_le (l : List Token) : (throughEnd l).length ≤ l.length := by
  induction l with
  | nil => exact Nat.le_refl _
  | cons t rest ih =>
    rw [throughEnd]
    split
    · exact Nat.succ_le_succ (Nat.zero_le _)
    · exact Nat.succ_le_succ ih

/-- Only the last token ahead may end the input. -/
theorem isEnd_of_mem_take_throughEnd {l : List Token} {n : Nat} (hn : n < (throughEnd l).length) :
    ∀ t ∈ (throughEnd l).take n, t.isEnd = false := by
  induction l generalizing n with
  | nil => cases hn
  | cons t rest ih =>
    cases n with
    | zero => exact List.forall_mem_nil _
    | succ n =>
      rw [throughEnd] at hn ⊢
      split at hn
      · rw [List.length_singleton] at hn
        omega
      · next ht =>
        rw [if_neg ht, List.take_succ_cons]
        exact List.forall_mem_cons.2
          ⟨Bool.eq_false_iff.2 ht, ih (Nat.lt_of_succ_lt_succ hn)⟩

/-- The tokens of an input are numbered by their places. -/
def IsNumbered (s : Input) : Prop :=
  ∀ i < s.size, (s.get i).index = i

theorem isNumbered_ofList (tokens : List Token) : (ofList tokens).IsNumbered := by
  intro i hi
  rw [get, Array.getElem?_eq_getElem hi, Option.getD_some]
  simp [ofList]

theorem add_le_size_of_le_length {s : Input} {n : Nat} (hpos : s.position ≤ s.size)
    (hn : n ≤ s.ahead.length) : s.position + n ≤ s.size := by
  have hle := length_throughEnd_le (s.tokens.toList.drop s.position)
  rw [List.length_drop, Array.length_toList] at hle
  have hle : s.ahead.length ≤ s.size - s.position := hle
  omega

namespace IsEnded

variable {s : Input}

theorem position_lt (h : s.IsEnded) : s.position < s.size := by
  obtain ⟨t, ht, _⟩ := h
  refine Nat.lt_of_not_le fun hge => ?_
  rw [ahead, List.drop_eq_nil_of_le hge] at ht
  cases ht

/-- Ahead there are the current token and, unless it ends the input, what is ahead
    once it is consumed. -/
theorem ahead_eq (h : s.IsEnded) :
    s.ahead = if s.current.isEnd then [s.current] else s.current :: s.consume.ahead := by
  have hlen : s.position < s.tokens.toList.length := h.position_lt
  have hcurrent : s.current = s.tokens.toList[s.position] := by
    rw [current, get, ← Array.getElem?_toList, List.getElem?_eq_getElem hlen, Option.getD_some]
  rw [ahead, List.drop_eq_getElem_cons hlen, ← hcurrent, throughEnd]
  split
  · rfl
  · next hend =>
    rw [consume, if_neg hend, ahead]

/-- An input still ends when a token is consumed. -/
theorem consume (h : s.IsEnded) : s.consume.IsEnded := by
  by_cases hend : s.current.isEnd = true
  · rwa [Input.consume, if_pos hend]
  · obtain ⟨t, ht, hend'⟩ := id h
    rw [h.ahead_eq, if_neg hend] at ht
    rcases List.mem_cons.1 ht with rfl | ht
    · exact absurd hend' hend
    · exact ⟨t, ht, hend'⟩

theorem word_eq (h : s.IsEnded) (hcurrent : s.current.type ≠ Token.endOfInput) :
    Token.word s.ahead = s.current.type :: Token.word s.consume.ahead := by
  rw [h.ahead_eq, if_neg fun hend => hcurrent (Token.isEnd_iff.1 hend), Token.word_cons hcurrent]

/-- The current token is of the first type ahead, and consuming it leaves the
    others. -/
theorem current_of_word (h : s.IsEnded) {type : Int} {w : List Int}
    (hw : Token.word s.ahead = type :: w) :
    s.current.type = type ∧ Token.word s.consume.ahead = w := by
  rw [h.ahead_eq] at hw
  split at hw
  · next hend =>
    rw [Token.word_cons_of_end (Token.isEnd_iff.1 hend)] at hw
    cases hw
  · next hend =>
    rw [Token.word_cons fun htype => hend (Token.isEnd_iff.2 htype)] at hw
    exact List.cons.inj hw

/-- The tokens ahead are those from the position on. -/
theorem take_ahead (h : s.IsEnded) {n : Nat} (hn : n ≤ s.ahead.length) :
    s.ahead.take n = s.between s.position (s.position + n) := by
  induction n generalizing s with
  | zero => rw [List.take_zero, Nat.add_zero, between_self]
  | succ n ih =>
    rw [s.between_of_lt (by omega), h.ahead_eq]
    rw [h.ahead_eq] at hn
    split at hn
    · next hend =>
      obtain rfl : n = 0 := by
        rw [List.length_singleton] at hn
        omega
      rw [if_pos hend, between_self]
      rfl
    · next hend =>
      have hconsume := ih h.consume (Nat.le_of_succ_le_succ hn)
      rw [Input.consume, if_neg hend] at hconsume
      rw [if_neg hend, List.take_succ_cons, Input.consume, if_neg hend, hconsume,
        Nat.add_right_comm]
      rfl

end IsEnded

end Input

end AdaptiveLL
