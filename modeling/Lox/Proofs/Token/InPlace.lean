import Mathlib
import Lox.Proofs.Token.Cursor
import Lox.Proofs.Token.Rewording

/-!
# Scanning in place

Each turn of the scanner takes one piece, as it is cut by characters, and says what the piece says.
So from its start a scanner is always in order: every place it asks for is in place, it moves on
with every turn until it is one past the end, and it gives the items of its source.
-/
namespace Lox
namespace Scan

/-- What is read of a piece that ends on a line, by its fault or what stays pending. -/
def Piece.Gives (p : Piece) (line : Nat) : Option Fault → Option TokenKind → Prop
  | some fault, _ => p.item? line = some (.error fault)
  | none, some kind => p.item? line = some (.ok ⟨kind, String.ofList p.text, line⟩)
  | none, none => p.item? line = none

/-! ## Lines of a piece -/

/-- Only blanks and strings hold newlines. -/
theorem Shaped.single_line {form : Form} {text : List Char} (h : Shaped form text)
    (filled : form ≠ .blank) (plain : form ≠ .string) : text.count '\n' = 0 := by
  cases h with
  | blank => exact absurd rfl filled
  | string => exact absurd rfl plain
  | comment inside => exact List.count_eq_zero.mpr (by simpa using inside)
  | symbol s => cases s <;> decide
  | word first inside => exact count_newline_of_shaped (.word first inside)
  | whole digits =>
    exact List.count_eq_zero.mpr fun hm => absurd (digits _ hm).1 (by decide)
  | fraction digits decimals =>
    refine List.count_eq_zero.mpr fun hm => ?_
    rcases List.mem_append.mp hm with hm | hm
    · exact absurd (digits _ hm).1 (by decide)
    · rcases List.mem_cons.mp hm with hm | hm
      · cases hm
      · exact absurd (decimals _ hm).1 (by decide)

variable {source : String} {tools : Tools} {before cs : List Char} {c : Cursor} {d : Char}

theorem shaped_cut {form : Form} {text : List Char} (he : (cut d cs).1 = ⟨form, text⟩)
    (closed : form ≠ .openString) (known : form ≠ .unknown) : Shaped form text := by
  have front := front_cut d cs
  rw [he] at front
  cases front with
  | shaped longest => exact longest.shaped
  | openString => exact absurd rfl closed
  | unknown => exact absurd rfl known

/-! ## One piece -/

/-- After the first byte of a piece the rest of it is passed, and read is what the piece gives. -/
def Passes (source : String) (p : Piece) (c : Cursor) (x : Reading (Option Fault)) : Prop :=
  ∃ fault pending, p.Gives (c.line + p.text.count '\n') fault pending ∧
    Runs source x c fault
      { c.past (bytesOf p.text.tail).length (p.text.count '\n') with pending := pending }

/-- A token that ends on the line where it starts. -/
theorem passes_token {p : Piece} {x : Reading Unit} {kind : TokenKind}
    (single : p.text.count '\n' = 0)
    (item : ∀ line, p.item? line = some (.ok ⟨kind, String.ofList p.text, line⟩))
    (runs : Runs source x c () { c.past (bytesOf p.text.tail).length 0 with
      pending := some kind }) : Passes source p c (do x; return none) := by
  refine ⟨none, some kind, item _, ?_⟩
  rw [single]
  exact runs.bind (.pure none _)

theorem Cursor.past_idle (c : Cursor) (nothing : c.pending = none) (m k : Nat) :
    { c.past m k with pending := none } = c.past m k := by
  rw [← nothing]
  rfl

/-- What is not a token leaves nothing pending. -/
theorem passes_other {p : Piece} {x : Reading (Option Fault)} {fault : Option Fault} {lines : Nat}
    (nothing : c.pending = none) (count : p.text.count '\n' = lines)
    (runs : Runs source x c fault (c.past (bytesOf p.text.tail).length lines))
    (gives : p.Gives (c.line + lines) fault none) : Passes source p c x := by
  refine ⟨fault, none, count ▸ gives, ?_⟩
  rw [c.past_idle nothing, count]
  exact runs

theorem count_newline_singleton (other : d ≠ '\n') : [d].count '\n' = 0 :=
  List.count_eq_zero.mpr (by simpa using Ne.symm other)

theorem passes_newline (nothing : c.pending = none) :
    Passes source ⟨.blank, ['\n']⟩ c (do newLine; return none) :=
  passes_other nothing List.count_singleton_self ((Runs.newLine c).bind (.pure none _)) rfl

theorem passes_blank (other : d ≠ '\n') (nothing : c.pending = none) :
    Passes source ⟨.blank, [d]⟩ c (return none) :=
  passes_other nothing (count_newline_singleton other) (.pure none c) rfl

theorem passes_symbol (documented : tools.Documented) (nothing : c.pending = none)
    (h : At source before cs c) {s : Symbol} (hs : symbol? d = some s)
    (shaped : Shaped (cutSymbol d s cs).1.form (cutSymbol d s cs).1.text) :
    Passes source (cutSymbol d s cs).1 c (do readSymbol source tools s; return none) := by
  have runs := Runs.readSymbol documented h nothing hs
  rcases cutSymbol_cases d s cs with ⟨he, -, -⟩ | ⟨ds, rfl, rfl⟩ | ⟨joined, ds, hj, rfl⟩
  · rw [he] at runs shaped ⊢
    exact passes_token (shaped.single_line nofun nofun) (fun _ => rfl) runs
  · rw [cutSymbol_comment] at runs shaped ⊢
    refine ⟨none, none, rfl, ?_⟩
    rw [shaped.single_line nofun nofun]
    exact runs.bind (.pure none _)
  · rw [cutSymbol_joined d hj] at runs shaped ⊢
    exact passes_token (shaped.single_line nofun nofun) (fun _ => rfl) runs

theorem passes_quote (start : c.start = (bytesOf before).length)
    (h : At source (before ++ ['"']) cs c) (nothing : c.pending = none) :
    Passes source (cut '"' cs).1 c (readString source) := by
  by_cases closed : '"' ∈ cs
  · obtain ⟨body, rest, rfl, inside⟩ := List.eq_append_cons_of_mem closed
    rw [cut_string fun e he hq => inside (hq ▸ he)]
    refine ⟨none, some (.string (String.ofList body)), ?_, ?_⟩
    · show Piece.item? _ _ = _
      simp [Piece.item?]
    · have lines : ('"' :: (body ++ ['"'])).count '\n' = body.count '\n' := by simp
      show Runs source _ c none { c.past (bytesOf (body ++ ['"'])).length
        (('"' :: (body ++ ['"'])).count '\n') with pending := _ }
      rw [lines]
      exact .readString start h inside
  · have opened : cs.dropWhile (· ≠ '"') = [] :=
      List.dropWhile_eq_nil_iff.mpr fun e he => decide_eq_true fun hq => closed (hq ▸ he)
    rw [cut_at_quote, opened]
    exact passes_other nothing (List.count_cons_of_ne (by decide)) (.readString_open h closed) rfl

section
variable (start : c.start = (bytesOf before).length) (h : At source (before ++ [d]) cs c)
include start h

theorem passes_word (documented : tools.Documented) (word : isWordStart d = true)
    (blank : ¬isBlank d = true) :
    Passes source (cut d cs).1 c (do readWord source tools; return none) := by
  have he : (cut d cs).1 = ⟨.word, d :: cs.takeWhile isWordPart⟩ := by
    rw [cut, if_neg blank, if_pos word]
  have shaped := shaped_cut he (by decide) (by decide)
  rw [he]
  exact passes_token (shaped.single_line (by decide) (by decide)) (fun _ => rfl)
    (.readWord documented start h)

theorem passes_number (digit : d.isDigit = true) (word : ¬isWordStart d = true)
    (blank : ¬isBlank d = true) :
    Passes source (cut d cs).1 c (do readNumber source; return none) := by
  have he : (cut d cs).1 = ⟨.number, d :: (cutNumber cs).1⟩ := by
    rw [cut, if_neg blank, if_neg word, if_pos digit]
  have shaped := shaped_cut he (by decide) (by decide)
  rw [he]
  exact passes_token (shaped.single_line (by decide) (by decide)) (fun _ => rfl)
    (.readNumber start h)

theorem passes_unknown (low : ¬Beyond d) (other : d ≠ '\n') (curr : c.curr = c.start + 1)
    (line : c.line ≤ c.start + 1) (nothing : c.pending = none) :
    Passes source ⟨.unknown, [d]⟩ c (do return some (← passCharacter source tools)) := by
  have one : c.start + (bytesOf [d]).length = c.curr := by
    rw [curr, bytesOf_cons_ascii low]
    rfl
  have whole : source.toList = before ++ (d :: cs) := by
    rw [h.whole, List.append_assoc, List.singleton_append]
  have runs : Runs source (passCharacter source tools) c _ _ :=
    .passCharacter start h.ordered line whole
  rw [one] at runs
  exact passes_other nothing (count_newline_singleton other) (runs.bind (.pure _ c)) rfl

end

/-- What starts with a character below 128 is read as it is cut. -/
theorem passes_ascii (documented : tools.Documented) (low : ¬Beyond d)
    (start : c.start = (bytesOf before).length) (curr : c.curr = c.start + 1)
    (line : c.line ≤ c.start + 1) (nothing : c.pending = none)
    (h : At source (before ++ [d]) cs c) :
    Passes source (cut d cs).1 c (readFrom source tools d) := by
  unfold readFrom
  by_cases newline : d = '\n'
  · subst newline
    exact passes_newline nothing
  rw [if_neg newline]
  by_cases blank : isBlank d = true
  · rw [if_pos blank, cut, if_pos blank]
    exact passes_blank newline nothing
  rw [if_neg blank]
  by_cases word : isWordStart d = true
  · rw [if_pos word]
    exact passes_word start h documented word blank
  rw [if_neg word]
  by_cases digit : d.isDigit = true
  · rw [if_pos digit]
    exact passes_number start h digit word blank
  rw [if_neg digit]
  by_cases quote : d = '"'
  · subst quote
    exact passes_quote start h nothing
  rw [if_neg quote]
  have he := cut_of_other blank word digit quote cs
  cases hs : symbol? d with
  | some s =>
    have symbolic : Scan.start d = .symbol := by
      rw [Scan.start, if_neg blank, if_neg word, if_neg digit, if_neg quote, hs]
      rfl
    rw [he, hs]
    exact passes_symbol documented nothing h hs (front_cutSymbol symbolic hs).shaped
  | none =>
    rw [he, hs]
    exact passes_unknown start h low newline curr line nothing

/-- Any other character is unexpected. -/
theorem cut_beyond (far : Beyond d) (cs : List Char) : cut d cs = (⟨.unknown, [d]⟩, cs) := by
  rw [cut_of_other (by rw [isBlank_of_beyond far]; nofun) (by rw [isWordStart_of_beyond far]; nofun)
    (by rw [isDigit_of_beyond far]; nofun) (ne_of_beyond far (by decide)), symbol?_of_beyond far]

theorem readFrom_beyond (far : Beyond d) :
    readFrom source tools d = (do return some (← passCharacter source tools)) := by
  unfold readFrom
  rw [if_neg (ne_of_beyond far (by decide)), isBlank_of_beyond far, isWordStart_of_beyond far,
    isDigit_of_beyond far, if_neg (ne_of_beyond far (by decide)), symbol?_of_beyond far]
  rfl

/-- Such a character is passed from its first byte to its last. -/
theorem runs_readPiece_beyond (far : Beyond d) (start : c.start = c.curr)
    (h : At source before (d :: cs) c) :
    Runs source (readPiece source tools) c (some (.lex .unexpectedCharacter c.line))
      (c.past (bytesOf [d]).length 0) := by
  have first : c.start = (bytesOf before).length := start.trans h.curr_eq
  have line : c.line ≤ c.start + 1 := start ▸ h.ordered.line_le
  have same : { c.past 1 0 with curr := c.start + (bytesOf [d]).length } =
      c.past (bytesOf [d]).length 0 := by
    rw [start]
    rfl
  cases he : String.utf8EncodeChar d with
  | nil => exact absurd he String.utf8EncodeChar_ne_nil
  | cons b bs =>
    have ahead := h.ahead
    rw [bytesOf_cons, he, List.cons_append] at ahead
    -- The first byte alone starts no piece, and the cursor is not between characters after it.
    have byte : Beyond (.ofUInt8 b) := beyond_of_mem far (he ▸ List.mem_cons_self)
    have runs : Runs source (passCharacter source tools) (c.past 1 0) _ _ :=
      .passCharacter first (h.ordered.past ahead.lt (Nat.zero_le 1)) line h.whole
    refine (Runs.advance h.ordered ahead).bind ?_
    rw [readFrom_beyond byte, ← same]
    exact runs.bind (.pure _ _)

/-- From its first byte a piece is read as it is cut. -/
theorem runs_readPiece (documented : tools.Documented) (start : c.start = c.curr)
    (nothing : c.pending = none) (h : At source before (d :: cs) c) : ∃ fault pending,
      (cut d cs).1.Gives (c.line + (cut d cs).1.text.count '\n') fault pending ∧
        Runs source (readPiece source tools) c fault
          { c.past (bytesOf (cut d cs).1.text).length ((cut d cs).1.text.count '\n') with
            pending := pending } := by
  by_cases far : Beyond d
  · rw [cut_beyond far]
    refine ⟨some (.lex .unexpectedCharacter c.line), none, ?_, ?_⟩
    · show Piece.item? _ _ = _
      rw [count_newline_singleton (ne_of_beyond far (by decide))]
      rfl
    · rw [c.past_idle nothing, count_newline_singleton (ne_of_beyond far (by decide))]
      exact runs_readPiece_beyond far start h
  · have ahead := h.ahead
    rw [bytesOf_cons_ascii far] at ahead
    have line : c.line ≤ c.start + 1 := start ▸ h.ordered.line_le
    obtain ⟨fault, pending, gives, runs⟩ := passes_ascii (c := c.past 1 0) documented far
      (start.trans h.curr_eq) (congrArg (· + 1) start.symm) line nothing
      (h.past_one far (Nat.zero_le 1))
    refine ⟨fault, pending, gives, ?_⟩
    have length : (bytesOf (cut d cs).1.text).length =
        1 + (bytesOf (cut d cs).1.text.tail).length := by
      rw [cut_text, bytesOf_cons_ascii far, List.length_cons, Nat.add_comm, List.tail_cons]
    have further := Cursor.past_past c 1 (bytesOf (cut d cs).1.text.tail).length 0
      ((cut d cs).1.text.count '\n')
    rw [← length, Nat.zero_add] at further
    rw [further] at runs
    refine (Runs.advance h.ordered ahead).bind ?_
    rw [ofUInt8_toUInt8 far]
    exact runs

/-! ## One turn -/

/-- What a turn gives of what a piece says. -/
def Turn.of : Option (Except Fault Token) → Turn
  | none => .skipped
  | some said => .item said

/-- The piece in hand becomes what it says. -/
theorem runs_emit {after : List Char} {p : Piece} (start : c.start = (bytesOf before).length)
    (h : At source (before ++ p.text) after c) {pending : Option TokenKind}
    (hp : c.pending = pending) (gives : p.Gives c.line none pending) :
    Runs source (emit source) c (.of (p.item? c.line)) { c with pending := none } := by
  refine (Runs.look c).bind ?_
  rw [hp]
  cases pending with
  | none =>
    have said : p.item? c.line = none := gives
    have kept : { c with pending := none } = c := by rw [← hp]
    rw [said, kept]
    exact Runs.pure Turn.skipped c
  | some kind =>
    have said : p.item? c.line = some (.ok ⟨kind, String.ofList p.text, c.line⟩) := gives
    have text : Runs source _ { c with pending := none } _ _ := .textAt start (h.pend none)
    rw [said]
    exact (Runs.move _ c).bind (text.bind (.pure (Turn.item _) _))

/-- Before the end a turn passes a piece and tells what it gives. -/
theorem runs_turn_of_piece (before_end : c.curr < source.toByteArray.size) {fault : Option Fault}
    {k k' : Cursor} {t : Turn}
    (piece : Runs source (readPiece source tools) { c with start := c.curr, pending := none }
      fault k)
    (told : Runs source (match fault with
      | some fault => return .item (.error fault)
      | none => emit source) k t k') : Runs source (turn source tools) c t k' := by
  refine (Runs.look c).bind ?_
  rw [if_neg (Nat.not_lt_of_lt before_end), if_neg before_end.ne]
  exact (Runs.move _ c).bind (piece.bind told)

/-- A turn takes the piece at the front of what is left. -/
theorem runs_turn (documented : tools.Documented) (h : At source before (d :: cs) c) : ∃ c',
    Runs source (turn source tools) c (.of ((cut d cs).1.item? c'.line)) c' ∧
      At source (before ++ (cut d cs).1.text) (cut d cs).2 c' ∧
        c'.line = c.line + (cut d cs).1.text.count '\n' := by
  have fresh : At source before (d :: cs) { c with start := c.curr, pending := none } :=
    ⟨h.whole, h.curr_eq, Nat.le_refl _, h.ordered.curr_le, h.ordered.line_le⟩
  obtain ⟨fault, pending, gives, runs⟩ := runs_readPiece documented rfl rfl fresh
  have split := fresh
  rw [← cut_append] at split
  have passed := (split.past (count_newline_le _)).pend pending
  cases fault with
  | some fault =>
    have said : (cut d cs).1.item? _ = some (.error fault) := gives
    refine ⟨_, runs_turn_of_piece h.lt runs ?_, passed, rfl⟩
    exact said ▸ .pure (Turn.item _) _
  | none =>
    exact ⟨_, runs_turn_of_piece h.lt runs (runs_emit h.curr_eq passed rfl gives),
      passed.pend none, rfl⟩

/-- At the end the end of input is told once. -/
theorem runs_turn_end (h : At source before [] c) :
    Runs source (turn source tools) c (.item (.ok ⟨.endOfInput, "", c.line⟩))
      { c with curr := c.curr + 1 } ∧ c.curr = source.toByteArray.size := by
  have last : c.curr = source.toByteArray.size := h.ahead.add_length
  refine ⟨(Runs.look c).bind ?_, last⟩
  rw [if_neg (Nat.not_lt_of_le last.le), if_pos last]
  exact (Runs.move _ c).bind (.pure (Turn.item _) _)

theorem runs_turn_ended (h : c.curr = source.toByteArray.size + 1) :
    Runs source (turn source tools) c .ended c := by
  refine (Runs.look c).bind ?_
  rw [if_pos (h ▸ Nat.lt_succ_self _)]
  exact .pure Turn.ended c

/-! ## Turn after turn -/

/-- A scanner stands between two pieces, or one past the end. -/
inductive Stands (source : String) (c : Cursor) : Prop where
  | between {before after : List Char} (h : At source before after c)
  | past (start : c.start ≤ c.curr) (curr : c.curr = source.toByteArray.size + 1)
      (line : c.line ≤ c.curr + 1)

/-- The cursors to which turns lead from the start. -/
inductive Reached (source : String) (tools : Tools) : Cursor → Prop where
  | first : Reached source tools .first
  | turn {c c' : Cursor} {asked asked' : List Moment} {t : Turn} (reached : Reached source tools c)
      (run : ((turn source tools).run ⟨c, asked⟩).run = some (.ok (t, ⟨c', asked'⟩))) :
      Reached source tools c'

theorem at_first (source : String) : At source [] source.toList .first :=
  ⟨rfl, rfl, Nat.le_refl _, Nat.zero_le _, Nat.le_refl _⟩

theorem Stands.bounds (h : Stands source c) :
    c.start ≤ c.curr ∧ c.curr ≤ source.toByteArray.size + 1 ∧ c.line ≤ c.curr + 1 := by
  cases h with
  | between h =>
    exact ⟨h.ordered.start_le, Nat.le_succ_of_le h.ordered.curr_le, h.ordered.line_le⟩
  | past start curr line => exact ⟨start, curr.le, line⟩

/-- A turn moves on, until the scanner is one past the end and stays there. -/
theorem Stands.turn (documented : tools.Documented) (h : Stands source c) : ∃ t c',
    Runs source (Scan.turn source tools) c t c' ∧ Stands source c' ∧
      (c.curr ≤ source.toByteArray.size ∧ t ≠ .ended ∧ c.curr < c'.curr ∨
        c.curr = source.toByteArray.size + 1 ∧ t = .ended ∧ c' = c) := by
  cases h with
  | past start curr line =>
    exact ⟨.ended, c, runs_turn_ended curr, .past start curr line, .inr ⟨curr, rfl, rfl⟩⟩
  | @between before after h =>
    cases after with
    | nil =>
      obtain ⟨run, last⟩ := runs_turn_end h
      refine ⟨_, _, run, .past (Nat.le_succ_of_le h.ordered.start_le) (congrArg (· + 1) last)
        (Nat.le_succ_of_le h.ordered.line_le), .inl ⟨last.le, nofun, Nat.lt_succ_self _⟩⟩
    | cons d cs =>
      obtain ⟨c', run, stand, -⟩ := runs_turn documented h
      refine ⟨_, c', run, .between stand, .inl ⟨h.ordered.curr_le, ?_, ?_⟩⟩
      · cases (cut d cs).1.item? c'.line <;> nofun
      · have wide := d.utf8Size_pos
        rw [h.curr_eq, stand.curr_eq, bytesOf_append, List.length_append, cut_text, bytesOf_cons,
          List.length_append, String.length_utf8EncodeChar]
        omega

/-- What a computation gives is all it can give. -/
theorem Runs.eq_of_run {α : Type} {x : Reading α} {a b : α} {c' k : Cursor}
    {asked asked' : List Moment} (h : Runs source x c a c')
    (run : (x.run ⟨c, asked⟩).run = some (.ok (b, ⟨k, asked'⟩))) : b = a ∧ k = c' := by
  obtain ⟨all, runs, -⟩ := h
  rw [runs asked] at run
  cases run
  exact ⟨rfl, rfl⟩

theorem Reached.stands (documented : tools.Documented) (h : Reached source tools c) :
    Stands source c := by
  induction h with
  | first => exact .between (at_first source)
  | turn _ run ih =>
    obtain ⟨t, c', runs, stands, -⟩ := ih.turn documented
    exact (runs.eq_of_run run).2 ▸ stands

/-! ## Item after item -/

section
variable {c' c'' : Cursor} {item : Except Fault Token} {found : Option (Except Fault Token)}
  {more : List (Except Fault Token)} {turns : Nat}

theorem next_of_item (h : Runs source (turn source tools) c (.item item) c') :
    Runs source (next source tools (turns + 1)) c (some item) c' :=
  h.bind (.pure _ c')

theorem next_of_skipped (h : Runs source (turn source tools) c .skipped c')
    (rest : Runs source (next source tools turns) c' found c'') :
    Runs source (next source tools (turns + 1)) c found c'' :=
  h.bind rest

theorem next_of_ended (h : Runs source (turn source tools) c .ended c') :
    Runs source (next source tools (turns + 1)) c none c' :=
  h.bind (.pure _ c')

theorem drain_of_item (h : Runs source (next source tools (limit source)) c (some item) c')
    (rest : Runs source (drain source tools turns) c' more c'') :
    Runs source (drain source tools (turns + 1)) c (item :: more) c'' :=
  h.bind (rest.bind (.pure _ c''))

theorem drain_of_none (h : Runs source (next source tools (limit source)) c none c') :
    Runs source (drain source tools (turns + 1)) c [] c' :=
  h.bind (.pure _ c')

end

/-- Before the end there is a next item. It is the first of those that are left. -/
theorem runs_next (documented : tools.Documented) (h : At source before cs c) {turns : Nat}
    (enough : cs.length < turns) : ∃ item c',
      Runs source (next source tools turns) c (some item) c' ∧
        ((∃ before' cs', At source before' cs' c' ∧ cs'.length < cs.length ∧
            items c.line (pieces cs) = item :: items c'.line (pieces cs')) ∨
          c'.curr = source.toByteArray.size + 1 ∧ items c.line (pieces cs) = [item]) := by
  induction turns generalizing before cs c with
  | zero => exact absurd enough (Nat.not_lt_zero _)
  | succ turns ih =>
    cases cs with
    | nil =>
      obtain ⟨run, last⟩ := runs_turn_end h
      exact ⟨_, _, next_of_item run, .inr ⟨congrArg (· + 1) last, by rw [pieces, items]⟩⟩
    | cons d cs =>
      obtain ⟨c', run, stand, line⟩ := runs_turn documented h
      have shorter : (cut d cs).2.length < (d :: cs).length :=
        Nat.lt_succ_of_le (length_cut_le d cs)
      rw [pieces, items, ← line]
      cases hi : (cut d cs).1.item? c'.line with
      | some item =>
        rw [hi] at run
        exact ⟨item, c', next_of_item run, .inl ⟨_, _, stand, shorter, rfl⟩⟩
      | none =>
        rw [hi] at run
        -- A turn is spent, but so is a character at least.
        obtain ⟨item, c'', runs, rest⟩ :=
          ih stand (Nat.lt_of_lt_of_le shorter (Nat.le_of_lt_succ enough))
        refine ⟨item, c'', next_of_skipped run runs, rest.imp_left ?_⟩
        rintro ⟨before', cs', stand', further, same⟩
        exact ⟨before', cs', stand', Nat.lt_trans further shorter, same⟩

theorem Stands.next (documented : tools.Documented) (h : Stands source c) : ∃ found c',
    Runs source (Scan.next source tools (limit source)) c found c' ∧
      (found = none ↔ c.curr = source.toByteArray.size + 1) := by
  cases h with
  | past _ curr _ => exact ⟨none, c, next_of_ended (runs_turn_ended curr), iff_of_true rfl curr⟩
  | between h =>
    obtain ⟨item, c', run, -⟩ := runs_next documented h (Nat.lt_of_succ_lt h.add_one_lt_limit)
    exact ⟨some item, c', run, iff_of_false nofun (Nat.lt_succ_of_le h.ordered.curr_le).ne⟩

/-- All items are those of the pieces that are left. After the last of them one more turn finds
nothing. -/
theorem runs_drain (documented : tools.Documented) (h : At source before cs c) {turns : Nat}
    (enough : cs.length + 1 < turns) : ∃ c',
      Runs source (drain source tools turns) c (items c.line (pieces cs)) c' ∧
        c'.curr = source.toByteArray.size + 1 := by
  induction turns generalizing before cs c with
  | zero => exact absurd enough (Nat.not_lt_zero _)
  | succ turns ih =>
    have left : cs.length < turns := Nat.lt_of_succ_lt_succ enough
    obtain ⟨item, c', run, ⟨before', cs', stand, shorter, same⟩ | ⟨last, same⟩⟩ :=
      runs_next documented h (Nat.lt_of_succ_lt h.add_one_lt_limit)
    · obtain ⟨c'', rest, last⟩ := ih stand (Nat.lt_of_le_of_lt shorter left)
      exact ⟨c'', same ▸ drain_of_item run rest, last⟩
    · obtain ⟨turns, rfl⟩ := Nat.exists_eq_add_one_of_ne_zero (Nat.ne_zero_of_lt left)
      have ended : Runs source (drain source tools (turns + 1)) c' [] c' :=
        drain_of_none (next_of_ended (runs_turn_ended last))
      exact ⟨c', same ▸ drain_of_item run ended, last⟩

theorem documented_plain : Tools.plain.Documented where
  find_some {b bytes n} h := by
    obtain ⟨lt, here, earlier⟩ := List.findIdx?_eq_some_iff_getElem.mp h
    refine ⟨List.getElem?_eq_some_iff.mpr ⟨lt, beq_iff_eq.mp here⟩, fun hm => ?_⟩
    obtain ⟨k, hk, he⟩ := List.mem_take_iff_getElem.mp hm
    exact earlier k (Nat.lt_of_lt_of_le hk (Nat.min_le_left _ _)) (beq_iff_eq.mpr he)
  find_none h := List.idxOf?_eq_none_iff.mp h
  keyword {bytes k} := by
    constructor
    · intro h
      have same := List.find?_some h
      simp only [decide_eq_true_eq] at same
      exact ByteArray.ext (Array.toList_inj.mp same.symm)
    · rintro rfl
      cases k <;> decide +kernel

end Scan

open Scan in
/-- Whatever the source, a scanner that works on its bytes is refused nothing and never exhausted.
Wherever turns have led it, it is in order, its next turn ends with all that it asks in place, and
it moves on until it is one past the end; so does its way to the next item. Thus every source is
scanned to its end, and its items are found. -/
theorem scanned_in_place {tools : Tools} (documented : tools.Documented) (source : String) :
    (∀ c, Reached source tools c →
      (c.start ≤ c.curr ∧ c.curr ≤ source.toByteArray.size + 1 ∧ c.line ≤ c.curr + 1) ∧
        (∃ t c', Runs source (turn source tools) c t c' ∧
          (c.curr ≤ source.toByteArray.size ∧ t ≠ .ended ∧ c.curr < c'.curr ∨
            c.curr = source.toByteArray.size + 1 ∧ t = .ended ∧ c' = c)) ∧
        ∃ found c', Runs source (next source tools (limit source)) c found c' ∧
          (found = none ↔ c.curr = source.toByteArray.size + 1)) ∧
      ∃ c, Runs source (drain source tools (limit source)) .first (scan source) c ∧
        c.curr = source.toByteArray.size + 1 := by
  have first := at_first source
  refine ⟨fun c reached => ?_, runs_drain documented first first.add_one_lt_limit⟩
  have stands := reached.stands documented
  obtain ⟨t, c', run, -, moves⟩ := stands.turn documented
  exact ⟨stands.bounds, ⟨t, c', run, moves⟩, stands.next documented⟩

open Scan in
/-- Characters of several bytes stand alone, in a string and in a comment at the end. -/
theorem wideCharacters_scanned :
    let source := "é\"日\n\"//ü"
    Tools.plain.Documented ∧ Reached source .plain ⟨0, 2, 1, none⟩ ∧
      (∃ t c', Runs source (turn source .plain) ⟨0, 2, 1, none⟩ t c' ∧ t ≠ .ended ∧ 2 < c'.curr) ∧
        ∃ c, Runs source (drain source .plain (limit source)) .first
          [.error (.lex .unexpectedCharacter 1), .ok ⟨.string "日\n", "\"日\n\"", 2⟩,
            .ok ⟨.endOfInput, "", 2⟩] c ∧ c.curr = 13 := by
  intro source
  have scanned : scan source = [.error (.lex .unexpectedCharacter 1),
      .ok ⟨.string "日\n", "\"日\n\"", 2⟩, .ok ⟨.endOfInput, "", 2⟩] := by cbv
  have size : source.toByteArray.size = 12 := rfl
  have run : ((turn "é\"日\n\"//ü" .plain).run ⟨.first, []⟩).run =
      some (.ok (.item (.error (.lex .unexpectedCharacter 1)), ⟨⟨0, 2, 1, none⟩,
        [⟨⟨0, 2, 1, none⟩, .text 0 2⟩, ⟨⟨0, 1, 1, none⟩, .text 0 12⟩,
          ⟨⟨0, 0, 1, none⟩, .byte 0⟩]⟩)) := rfl
  have reached : Reached source .plain ⟨0, 2, 1, none⟩ := .turn .first run
  obtain ⟨inOrder, c, drained, last⟩ := scanned_in_place documented_plain source
  obtain ⟨-, ⟨t, c', turned, moves⟩, -⟩ := inOrder _ reached
  rw [size] at moves last
  rw [scanned] at drained
  obtain ⟨-, goes, further⟩ | ⟨past, -⟩ := moves
  · exact ⟨documented_plain, reached, ⟨t, c', turned, goes, further⟩, c, drained, last⟩
  · cases past

open Scan in
/-- No text is cut inside a character. -/
example : ((turn "é" .plain).run ⟨⟨0, 1, 1, none⟩, []⟩).run = some (.error (.text 1 2)) :=
  rfl

end Lox
