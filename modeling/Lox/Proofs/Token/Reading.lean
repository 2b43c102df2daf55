import Lox.Proofs.Token.Bytes

/-!
# Reading bytes in place

`Runs` says that a computation ends, neither exhausted nor refused, and asks only for what is in
place while its cursor is in order. There is one rule for each step, and from these one for each
way to pass over bytes, which tells by the bytes ahead where the cursor stops.
-/
namespace Lox.Scan

/-- What may be asked: bytes of the source, and texts that start and end between characters. -/
def Access.InPlace (source : String) : Access → Prop
  | .byte place => place < source.toByteArray.size
  | .bytes low high => low ≤ high ∧ high ≤ source.toByteArray.size
  | .text low high => low ≤ high ∧ String.Pos.Raw.IsValid source ⟨low⟩ ∧
      String.Pos.Raw.IsValid source ⟨high⟩

/-- A piece is not left before it is started, and there are no more lines than bytes passed, the
first line apart. -/
structure Cursor.Ordered (source : String) (c : Cursor) : Prop where
  start_le : c.start ≤ c.curr
  curr_le : c.curr ≤ source.toByteArray.size
  line_le : c.line ≤ c.curr + 1

/-- The cursor some bytes and lines further on. -/
def Cursor.past (c : Cursor) (bytes lines : Nat) : Cursor :=
  { c with curr := c.curr + bytes, line := c.line + lines }

theorem Cursor.past_past (c : Cursor) (m n k l : Nat) :
    (c.past m k).past n l = c.past (m + n) (k + l) := by
  simp only [past, Nat.add_assoc]

theorem Cursor.Ordered.past {source : String} {c : Cursor} (h : c.Ordered source) {m k : Nat}
    (bounded : c.curr + m ≤ source.toByteArray.size) (lines : k ≤ m) :
    (c.past m k).Ordered source where
  start_le := Nat.le_trans h.start_le (Nat.le_add_right _ _)
  curr_le := bounded
  line_le := by
    show c.line + k ≤ c.curr + m + 1
    have le := h.line_le
    omega

structure Moment.InPlace (source : String) (m : Moment) : Prop where
  cursor : m.cursor.Ordered source
  access : m.access.InPlace source

/-- From `c` the computation ends with `a` and the cursor `c'`, and all it asks is in place. -/
def Runs (source : String) {α : Type} (x : Reading α) (c : Cursor) (a : α) (c' : Cursor) : Prop :=
  ∃ asked, (∀ before, (x.run ⟨c, before⟩).run = some (.ok (a, ⟨c', asked ++ before⟩))) ∧
    ∀ m ∈ asked, m.InPlace source

/-- The bytes from a place on. -/
def Ahead (source : String) (place : Nat) (bs : List UInt8) : Prop :=
  ∃ before, source.toByteArray.data.toList = before ++ bs ∧ before.length = place

variable {source : String} {α β : Type} {c c' c'' : Cursor} {place : Nat} {b : UInt8}
  {bs body after : List UInt8}

namespace Ahead

theorem add_length (h : Ahead source place bs) : place + bs.length = source.toByteArray.size := by
  obtain ⟨before, whole, rfl⟩ := h
  rw [← List.length_append, ← whole, Array.length_toList, ByteArray.size_data]

theorem append (h : Ahead source place (body ++ after)) :
    Ahead source (place + body.length) after := by
  obtain ⟨before, whole, rfl⟩ := h
  exact ⟨before ++ body, by rw [whole, List.append_assoc], List.length_append⟩

theorem tail (h : Ahead source place (b :: bs)) : Ahead source (place + 1) bs :=
  show Ahead source (place + [b].length) bs from append h

theorem lt (h : Ahead source place (b :: bs)) : place < source.toByteArray.size := by
  have all := h.add_length
  rw [List.length_cons] at all
  omega

theorem le (h : Ahead source place bs) : place ≤ source.toByteArray.size :=
  h.add_length ▸ Nat.le_add_right _ _

/-- Bytes ahead are fewer than the turns of a loop. -/
theorem length_lt (h : Ahead source place (body ++ after)) : body.length < limit source := by
  have all := h.add_length
  rw [List.length_append] at all
  rw [limit]
  omega

theorem getElem (h : Ahead source place (b :: bs)) (lt : place < source.toByteArray.size) :
    source.toByteArray[place] = b := by
  obtain ⟨before, whole, rfl⟩ := h
  rw [ByteArray.getElem_eq_getElem_data, ← Array.getElem_toList]
  simp only [whole, List.getElem_append_right (Nat.le_refl _), Nat.sub_self, List.getElem_cons_zero]

/-- All that is ahead, as bytes. -/
theorem extract (h : Ahead source place bs) :
    (source.toByteArray.extract place source.toByteArray.size).data.toList = bs := by
  obtain ⟨before, whole, rfl⟩ := h
  rw [ByteArray.data_extract, Array.toList_extract, whole, ← ByteArray.size_data,
    ← Array.length_toList, whole]
  simp [List.extract_eq_take_drop]

end Ahead

/-! ## Rules for single steps -/

namespace Runs

theorem pure (a : α) (c : Cursor) : Runs source (pure a) c a c :=
  ⟨[], fun _ => rfl, nofun⟩

theorem bind {x : Reading α} {f : α → Reading β} {a : α} {b : β} (first : Runs source x c a c')
    (second : Runs source (f a) c' b c'') : Runs source (x >>= f) c b c'' := by
  obtain ⟨asked, run, inPlace⟩ := first
  obtain ⟨asked', run', inPlace'⟩ := second
  refine ⟨asked' ++ asked, fun before => ?_, fun m hm => ?_⟩
  · rw [StateT.run_bind, ExceptT.run_bind, run, List.append_assoc]
    exact run' _
  · exact (List.mem_append.mp hm).elim (inPlace' m) (inPlace m)

theorem look (c : Cursor) : Runs source look c c c := ⟨[], fun _ => rfl, nofun⟩

theorem move (f : Cursor → Cursor) (c : Cursor) : Runs source (move f) c () (f c) :=
  ⟨[], fun _ => rfl, nofun⟩

theorem note {access : Access} (inPlace : access.InPlace source) (h : c.Ordered source) :
    Runs source (note access) c () c := by
  refine ⟨[⟨c, access⟩], fun _ => rfl, fun m hm => ?_⟩
  rw [List.mem_singleton.mp hm]
  exact ⟨h, inPlace⟩

theorem byteAt (h : c.Ordered source) (ahead : Ahead source place (b :: bs)) :
    Runs source (byteAt source place) c b c := by
  have inPlace : (Access.byte place).InPlace source := ahead.lt
  refine (note inPlace h).bind ?_
  rw [dif_pos ahead.lt, ahead.getElem]
  exact .pure b c

theorem bytesBetween {low high : Nat} (h : c.Ordered source) (le : low ≤ high)
    (bounded : high ≤ source.toByteArray.size) :
    Runs source (bytesBetween source low high) c (source.toByteArray.extract low high) c := by
  have inPlace : (Access.bytes low high).InPlace source := ⟨le, bounded⟩
  refine (note inPlace h).bind ?_
  rw [if_pos ⟨le, bounded⟩]
  exact .pure _ c

theorem textBetween {before body after : List Char} (h : c.Ordered source)
    (whole : source.toList = before ++ (body ++ after)) {low high : Nat}
    (hl : low = (bytesOf before).length) (hh : high = (bytesOf (before ++ body)).length) :
    Runs source (textBetween source low high) c (String.ofList body) c := by
  have whole' : source.toList = (before ++ body) ++ after := by rw [whole, List.append_assoc]
  have le : low ≤ high := by
    rw [hl, hh, bytesOf_append, List.length_append]
    exact Nat.le_add_right _ _
  have valid : low ≤ high ∧ String.Pos.Raw.IsValid source ⟨low⟩ ∧
      String.Pos.Raw.IsValid source ⟨high⟩ :=
    ⟨le, hl ▸ isValid_between whole, hh ▸ isValid_between whole'⟩
  have inPlace : (Access.text low high).InPlace source := valid
  refine (note inPlace h).bind ?_
  have cut : source.extract ⟨⟨low⟩, valid.2.1⟩ ⟨⟨high⟩, valid.2.2⟩ = String.ofList body :=
    String.toByteArray_inj.mp (extract_toByteArray whole hl hh)
  rw [dif_pos valid, cut]
  exact .pure _ c

/-! ## One byte at a time -/

theorem atEnd (ahead : Ahead source c.curr bs) : Runs source (atEnd source) c bs.isEmpty c := by
  have all := ahead.add_length
  have same : decide (source.toByteArray.size ≤ c.curr) = bs.isEmpty := by
    cases bs with
    | nil => exact decide_eq_true (Nat.le_of_eq all.symm)
    | cons b bs => exact decide_eq_false (Nat.not_le_of_lt ahead.lt)
  exact (look c).bind (same ▸ .pure _ c)

theorem advance (h : c.Ordered source) (ahead : Ahead source c.curr (b :: bs)) :
    Runs source (advance source) c b { c with curr := c.curr + 1 } :=
  (look c).bind ((byteAt h ahead).bind ((move _ c).bind (.pure b _)))

/-- At the end a zero is read. -/
theorem peek (h : c.Ordered source) (ahead : Ahead source c.curr bs) :
    Runs source (peek source) c (bs.headD 0) c := by
  refine (atEnd ahead).bind ?_
  cases bs with
  | nil => exact .pure 0 c
  | cons b bs => exact (look c).bind (byteAt h ahead)

theorem peekNext (h : c.Ordered source) (ahead : Ahead source c.curr bs) :
    Runs source (peekNext source) c (bs.tail.headD 0) c := by
  have all := ahead.add_length
  refine (look c).bind ?_
  match bs with
  | [] =>
    rw [if_pos (all ▸ Nat.le_succ c.curr)]
    exact .pure 0 c
  | [b] =>
    have last : source.toByteArray.size ≤ c.curr + 1 := Nat.le_of_eq all.symm
    rw [if_pos last]
    exact .pure 0 c
  | b :: b' :: bs =>
    rw [if_neg (Nat.not_le_of_lt ahead.tail.lt)]
    exact byteAt h ahead.tail

theorem passByte (h : c.Ordered source) (ahead : Ahead source c.curr (b :: bs)) :
    Runs source (passByte source b) c true (c.past 1 0) := by
  refine (atEnd ahead).bind ((peek h ahead).bind ?_)
  rw [List.headD_cons, if_pos rfl]
  exact (advance h ahead).bind (.pure true _)

theorem passByte_other (h : c.Ordered source) (ahead : Ahead source c.curr bs)
    (other : ∀ d ∈ bs.head?, d ≠ b) : Runs source (Scan.passByte source b) c false c := by
  refine (atEnd ahead).bind ?_
  cases bs with
  | nil => exact .pure false c
  | cons d bs =>
    refine (peek h ahead).bind ?_
    rw [List.headD_cons, if_neg (other d rfl)]
    exact .pure false c

/-! ## Passing over bytes -/

theorem passWhile {p : Char → Bool} (zero : p (.ofUInt8 0) = false) (h : c.Ordered source)
    (ahead : Ahead source c.curr (body ++ after)) (inside : ∀ b ∈ body, p (.ofUInt8 b) = true)
    (stops : ∀ b ∈ after.head?, p (.ofUInt8 b) = false) {turns : Nat}
    (enough : body.length < turns) :
    Runs source (passWhile source p turns) c () (c.past body.length 0) := by
  induction turns generalizing body c with
  | zero => exact absurd enough (Nat.not_lt_zero _)
  | succ turns ih =>
    refine (peek h ahead).bind ?_
    cases body with
    | nil =>
      have stop : ¬p (.ofUInt8 (after.headD 0)) = true := by
        cases after with
        | nil => exact Bool.not_eq_true _ ▸ zero
        | cons b after => exact Bool.not_eq_true _ ▸ stops b rfl
      rw [List.nil_append, if_neg stop]
      exact .pure () c
    | cons b body =>
      rw [List.cons_append, List.headD_cons, if_pos (inside b List.mem_cons_self)]
      have rest := ih (h.past (k := 0) ahead.lt (Nat.zero_le 1)) ahead.tail
        (fun d hd => inside d (List.mem_cons_of_mem _ hd)) (Nat.lt_of_succ_lt_succ enough)
      rw [Cursor.past_past, Nat.add_comm 1] at rest
      exact (advance h ahead).bind rest

theorem newLine (c : Cursor) : Runs source newLine c () (c.past 0 1) := .move _ c

theorem pend (kind : TokenKind) (c : Cursor) :
    Runs source (pend kind) c () { c with pending := some kind } :=
  .move _ c

/-- A text is passed to the next quote or to the end, and its newlines are counted. -/
theorem passText (h : c.Ordered source) (ahead : Ahead source c.curr (body ++ after))
    (inside : ∀ b ∈ body, b ≠ '"'.toUInt8) (stops : ∀ b ∈ after.head?, b = '"'.toUInt8)
    {turns : Nat} (enough : body.length < turns) :
    Runs source (passText source turns) c () (c.past body.length (body.count '\n'.toUInt8)) := by
  induction turns generalizing body c with
  | zero => exact absurd enough (Nat.not_lt_zero _)
  | succ turns ih =>
    refine (atEnd ahead).bind ?_
    cases body with
    | nil =>
      cases after with
      | nil => exact .pure () c
      | cons b after =>
        refine (peek h ahead).bind ?_
        rw [List.nil_append, List.headD_cons, if_pos (stops b rfl)]
        exact .pure () c
    | cons b body =>
      refine (peek h ahead).bind ?_
      rw [List.cons_append, List.headD_cons, if_neg (inside b List.mem_cons_self)]
      refine (advance h ahead).bind ?_
      -- One byte is passed and one line at most, so the cursor stays in order.
      have rest (k : Nat) (hk : k ≤ 1) := ih (h.past (m := 1) (k := k) ahead.lt hk) ahead.tail
        (fun d hd => inside d (List.mem_cons_of_mem _ hd)) (Nat.lt_of_succ_lt_succ enough)
      simp only [Cursor.past_past] at rest
      rw [List.length_cons, List.count_cons, Nat.add_comm body.length,
        Nat.add_comm (body.count _)]
      by_cases line : b = '\n'.toUInt8
      · rw [if_pos line, if_pos (beq_iff_eq.mpr line)]
        exact (newLine _).bind (rest 1 (Nat.le_refl 1))
      · rw [if_neg line, if_neg (fun he => line (beq_iff_eq.mp he))]
        exact rest 0 (Nat.zero_le 1)

end Runs
end Lox.Scan
