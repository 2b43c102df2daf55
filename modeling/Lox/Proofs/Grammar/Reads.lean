import Lox.Grammar.Statement

/-!
# Replies with a value

`r.Reads value left` says that a reply is done with a value and noted nothing on the way, and
`r.Yields value noted left` that it noted some faults. Each combinator of replies is described by
what it reads; no proof about a reader looks at the bounds that a reply carries.
-/
namespace Lox.Grammar

variable {α β : Type} {n m : Nat}

/-- The reply has read a value, with nothing noted. -/
def Reply.Reads (r : Reply α n) (value : α) (left : Input) : Prop :=
  ∃ h, r = .done value [] left h

namespace Reply

@[simp] theorem reads_done {value value' : α} {noted : List Fault} {left left' : Input}
    {h : left.size < n} :
    (done value noted left h).Reads value' left' ↔
      noted = [] ∧ value = value' ∧ left = left' := by
  constructor
  · rintro ⟨_, he⟩
    injection he with hv hn hl
    exact ⟨hn, hv, hl⟩
  · rintro ⟨rfl, rfl, rfl⟩
    exact ⟨h, rfl⟩

@[simp] theorem reads_stuck {fault : Fault} {noted : List Fault} {value : α} {left left' : Input}
    {h : left.size ≤ n} : ¬ (stuck fault noted left h).Reads value left' := by
  rintro ⟨_, he⟩
  cases he

@[simp] theorem reads_pure {value value' : α} {left left' : Input} {h : left.size < n} :
    (pure value left h).Reads value' left' ↔ value = value' ∧ left = left' := by
  simp [pure]

@[simp] theorem reads_tagged {value : Nat → α} {value' : α} {left left' : Input}
    {h : left.size < n} :
    (tagged value left h).Reads value' left' ↔
      value left.nextId = value' ∧ { left with nextId := left.nextId + 1 } = left' := by
  constructor
  · rintro ⟨_, he⟩
    injection he with hv _ hl
    exact ⟨hv, hl⟩
  · rintro ⟨rfl, rfl⟩
    exact ⟨h, rfl⟩

@[simp] theorem reads_expected {cause : ParseCause} {s left : Input} {value : α}
    {h : s.size ≤ n} : ¬ (expected cause s h).Reads value left := by
  simp [expected]

@[simp] theorem reads_noting {r : Reply α n} {earlier : List Fault} {value : α} {left : Input} :
    (r.noting earlier).Reads value left ↔ earlier = [] ∧ r.Reads value left := by
  cases r with
  | done _ noted => simp [noting, and_assoc]
  | stuck => simp [noting]

@[simp] theorem reads_widen {r : Reply α n} {le : n ≤ m} {value : α} {left : Input} :
    (r.widen le).Reads value left ↔ r.Reads value left := by
  cases r <;> simp [widen]

@[simp] theorem reads_andThen {r : Reply α n}
    {next : α → (left : Input) → left.size < n → Reply β m} {le : n ≤ m} {value : β}
    {left : Input} :
    (r.andThen next le).Reads value left ↔
      ∃ first s h, r.Reads first s ∧ (next first s h).Reads value left := by
  cases r with
  | stuck => simp [andThen]
  | done first noted s h =>
    simp only [andThen, reads_noting, reads_done]
    constructor
    · rintro ⟨hn, hr⟩
      exact ⟨first, s, h, ⟨hn, rfl, rfl⟩, hr⟩
    · rintro ⟨_, _, _, ⟨hn, rfl, rfl⟩, hr⟩
      exact ⟨hn, hr⟩

/-- A reply that reads leaves less than it was given. -/
theorem Reads.shorter {r : Reply α n} {value : α} {left : Input} (h : r.Reads value left) :
    left.size < n :=
  h.1

/-- Reading has one result at most. -/
theorem Reads.unique {r : Reply α n} {value value' : α} {left left' : Input}
    (h : r.Reads value left) (h' : r.Reads value' left') : value = value' ∧ left = left' := by
  obtain ⟨_, rfl⟩ := h
  simpa using h'

end Reply

namespace Input

/-- The input that starts with one more token. -/
def push (t : Token) (s : Input) : Input := { s with rest := t :: s.rest }

@[simp] theorem size_push (t : Token) (s : Input) : (s.push t).size = s.size + 1 := rfl

theorem next?_push (t : Token) (s : Input) :
    (s.push t).next? = some ⟨t, s, Nat.lt_succ_self _⟩ := rfl

theorem next?_eq_some {s left : Input} {t : Token} {h : left.size < s.size} :
    s.next? = some ⟨t, left, h⟩ ↔ s = left.push t := by
  constructor
  · obtain ⟨rest, close, id⟩ := s
    cases rest with
    | nil => simp [next?]
    | cons _ ts =>
      simp only [next?, push, Option.some.injEq]
      rintro ⟨rfl, rfl⟩
      rfl
  · rintro rfl
    exact next?_push t left

theorem take?_eq_some {s left : Input} {accepts : TokenKind → Bool} {t : Token}
    {h : left.size < s.size} :
    s.take? accepts = some ⟨t, left, h⟩ ↔ accepts t.kind = true ∧ s = left.push t := by
  rw [← next?_eq_some (h := h)]
  cases hn : s.next? with
  | none => simp [take?, hn]
  | some taken =>
    simp only [take?, hn]
    constructor
    · split
      · next ha => intro he; injection he with he; subst he; exact ⟨ha, rfl⟩
      · exact fun he => nomatch he
    · rintro ⟨ha, he⟩
      injection he with he
      subst he
      exact if_pos ha

theorem take?_eq_none {s : Input} {accepts : TokenKind → Bool} :
    s.take? accepts = none ↔ ∀ t ∈ s.rest.head?, accepts t.kind = false := by
  obtain ⟨rest, close, id⟩ := s
  cases rest <;> simp [take?, next?]

theorem take_eq_some {s left : Input} {kind : TokenKind} {t : Token} {h : left.size < s.size} :
    s.take kind = some ⟨t, left, h⟩ ↔ t.kind = kind ∧ s = left.push t := by
  simp [take, take?_eq_some]

theorem take_eq_none {s : Input} {kind : TokenKind} :
    s.take kind = none ↔ ∀ t ∈ s.rest.head?, t.kind ≠ kind := by
  simp [take, take?_eq_none]

@[simp] theorem reads_expect {s left : Input} {kind : TokenKind} {cause : ParseCause} {t : Token} :
    (s.expect kind cause).Reads t left ↔ t.kind = kind ∧ s = left.push t := by
  cases ht : s.take kind with
  | none =>
    simp only [expect, ht, Reply.reads_expected, false_iff]
    rintro ⟨hk, rfl⟩
    exact take_eq_none.mp ht t rfl hk
  | some taken =>
    obtain ⟨t', s', h'⟩ := taken
    obtain ⟨hk, rfl⟩ := take_eq_some.mp ht
    simp only [expect, ht, Reply.reads_pure]
    constructor
    · rintro ⟨rfl, rfl⟩
      exact ⟨hk, rfl⟩
    · rintro ⟨_, he⟩
      obtain ⟨rest, close, id⟩ := s'
      simp only [push, Input.mk.injEq, List.cons.injEq] at he
      obtain ⟨⟨rfl, rfl⟩, rfl, rfl⟩ := he
      exact ⟨rfl, rfl⟩

/-! ### Inputs in parts -/

variable {t : Token} {ts rest : List Token} {close : Token} {id : Nat}

theorem take_cons {kind : TokenKind} (h : t.kind = kind) :
    (⟨t :: ts, close, id⟩ : Input).take kind = some ⟨t, ⟨ts, close, id⟩, Nat.lt_succ_self _⟩ :=
  take_eq_some.mpr ⟨h, rfl⟩

theorem take_cons_ne {kind : TokenKind} (h : t.kind ≠ kind) :
    (⟨t :: ts, close, id⟩ : Input).take kind = none :=
  take_eq_none.mpr (by rintro _ ⟨⟩; exact h)

theorem take?_cons {accepts : TokenKind → Bool} (h : accepts t.kind = true) :
    (⟨t :: ts, close, id⟩ : Input).take? accepts =
      some ⟨t, ⟨ts, close, id⟩, Nat.lt_succ_self _⟩ :=
  take?_eq_some.mpr ⟨h, rfl⟩

theorem take?_cons_ne {accepts : TokenKind → Bool} (h : accepts t.kind = false) :
    (⟨t :: ts, close, id⟩ : Input).take? accepts = none :=
  take?_eq_none.mpr (by rintro _ ⟨⟩; exact h)

theorem reads_expect_cons {kind : TokenKind} {cause : ParseCause} (h : t.kind = kind) :
    ((⟨t :: ts, close, id⟩ : Input).expect kind cause).Reads t ⟨ts, close, id⟩ :=
  reads_expect.mpr ⟨h, rfl⟩

end Input

section
variable {r : Reply α n} {next : α → (left : Input) → left.size < n → Reply β m} {le : n ≤ m}
  {first : α} {value : β} {s left : Input} {noted noted' : List Fault}

theorem Reply.Reads.andThen (h : r.Reads first s)
    (h' : ∀ hs, (next first s hs).Reads value left) : (r.andThen next le).Reads value left :=
  reads_andThen.mpr ⟨first, s, h.shorter, h, h' _⟩

/-- The reply has read a value and noted these faults on the way. -/
def Reply.Yields (r : Reply α n) (value : α) (noted : List Fault) (left : Input) : Prop :=
  ∃ h, r = .done value noted left h

theorem Reply.Yields.noting (h : r.Yields first noted s) (earlier : List Fault) :
    (r.noting earlier).Yields first (earlier ++ noted) s := by
  obtain ⟨hs, rfl⟩ := h
  exact ⟨hs, rfl⟩

theorem Reply.Yields.widen (h : r.Yields first noted s) {le : n ≤ m} :
    (r.widen le).Yields first noted s := by
  obtain ⟨hs, rfl⟩ := h
  exact ⟨Nat.lt_of_lt_of_le hs le, rfl⟩

theorem Reply.Yields.andThen (h : r.Yields first noted s)
    (h' : ∀ hs, (next first s hs).Yields value noted' left) :
    (r.andThen next le).Yields value (noted ++ noted') left := by
  obtain ⟨hs, rfl⟩ := h
  exact (h' hs).noting noted

theorem Reply.Yields.andReads (h : r.Yields first noted s)
    (h' : ∀ hs, (next first s hs).Reads value left) :
    (r.andThen next le).Yields value noted left := by
  rw [← List.append_nil noted]
  exact h.andThen h'

theorem Reply.Reads.andYields (h : r.Reads first s)
    (h' : ∀ hs, (next first s hs).Yields value noted left) :
    (r.andThen next le).Yields value noted left :=
  Yields.andThen h h'

end

end Lox.Grammar
