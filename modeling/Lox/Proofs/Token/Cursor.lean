import Lox.Proofs.Token.Reading
import Lox.Proofs.Token.Spelling

/-!
# Reading pieces byte by byte

Between two pieces the cursor stands between two characters. From there the bytes of the next
piece are passed, its texts are cut between characters, and what is read is what the piece says.
-/
namespace Lox.Scan

/-- A search finds the first place of a byte, and the table has the keywords only. -/
structure Tools.Documented (tools : Tools) : Prop where
  find_some : ∀ {b : UInt8} {bytes : ByteArray} {n : Nat}, tools.find b bytes = some n →
    bytes.data.toList[n]? = some b ∧ b ∉ bytes.data.toList.take n
  find_none : ∀ {b : UInt8} {bytes : ByteArray}, tools.find b bytes = none →
    b ∉ bytes.data.toList
  keyword : ∀ {bytes : ByteArray} {k : Keyword}, tools.keyword bytes = some k ↔
    bytes = k.text.toByteArray

namespace Tools.Documented

variable {tools : Tools} (documented : tools.Documented)
include documented

theorem keyword_eq (word : String) :
    tools.keyword word.toByteArray = Keyword.ofText? word := by
  cases hk : Keyword.ofText? word with
  | some k => exact documented.keyword.mpr (congrArg _ (Keyword.text_of_ofText? hk))
  | none =>
    cases ht : tools.keyword word.toByteArray with
    | none => rfl
    | some k =>
      exact absurd (String.toByteArray_inj.mp (documented.keyword.mp ht))
        (Keyword.ne_text_of_ofText? hk k)

/-- A search ends where the bytes that differ from the one sought end. -/
theorem find_cases {b : UInt8} {bytes : ByteArray} {bs rest : List UInt8}
    (split : bytes.data.toList = bs ++ rest) (other : b ∉ bs) (stops : ∀ e ∈ rest.head?, e = b) :
    tools.find b bytes = some bs.length ∨ tools.find b bytes = none ∧ rest = [] := by
  cases hf : tools.find b bytes with
  | none =>
    refine .inr ⟨rfl, ?_⟩
    have absent := documented.find_none hf
    rw [split] at absent
    cases rest with
    | nil => rfl
    | cons e rest =>
      exact absurd (List.mem_append_right bs (stops e rfl ▸ List.mem_cons_self)) absent
  | some n =>
    have ⟨found, absent⟩ := documented.find_some hf
    rw [split] at found absent
    refine .inl (congrArg some (Nat.le_antisymm ?_ ?_))
    -- A later place is not the first, and at an earlier one stands another byte.
    · by_contra past
      have later : bs.length < n := Nat.lt_of_not_le past
      cases rest with
      | nil =>
        rw [List.append_nil, List.getElem?_eq_none later.le] at found
        cases found
      | cons e rest =>
        have here : ((bs ++ e :: rest).take n)[bs.length]? = some b := by
          rw [List.getElem?_take_of_lt later, List.getElem?_append_right (Nat.le_refl _),
            Nat.sub_self, List.getElem?_cons_zero, stops e rfl]
        exact absent (List.mem_of_getElem? here)
    · by_contra early
      rw [List.getElem?_append_left (Nat.lt_of_not_le early)] at found
      exact other (List.mem_of_getElem? found)

end Tools.Documented

/-- What stays pending of a symbol: nothing if it starts a comment. -/
def symbolPending : Form → Option TokenKind
  | .symbol s => some (.symbol s)
  | _ => none

/-- The cursor stands after `before`, and `after` is left. -/
structure At (source : String) (before after : List Char) (c : Cursor) : Prop where
  whole : source.toList = before ++ after
  curr_eq : c.curr = (bytesOf before).length
  ordered : c.Ordered source

variable {source : String} {tools : Tools} {before body text after cs : List Char} {c : Cursor}
  {d : Char}

namespace At

theorem ahead (h : At source before after c) : Ahead source c.curr (bytesOf after) :=
  ⟨bytesOf before, by rw [toList_data_toByteArray, h.whole, bytesOf_append], h.curr_eq.symm⟩

theorem lt (h : At source before (d :: after) c) : c.curr < source.toByteArray.size := by
  have all := h.ahead.add_length
  have wide := d.utf8Size_pos
  rw [bytesOf_cons, List.length_append, String.length_utf8EncodeChar] at all
  omega

/-- A loop has a turn for each character that is left, and two more. -/
theorem add_one_lt_limit (h : At source before after c) : after.length + 1 < limit source := by
  have all := h.ahead.add_length
  have wide := length_le_bytesOf after
  rw [limit]
  omega

theorem past (h : At source before (body ++ after) c) {lines : Nat}
    (le : lines ≤ (bytesOf body).length) :
    At source (before ++ body) after (c.past (bytesOf body).length lines) where
  whole := by rw [h.whole, List.append_assoc]
  curr_eq := by rw [bytesOf_append, List.length_append, ← h.curr_eq]; rfl
  ordered := by
    have ahead := h.ahead
    rw [bytesOf_append] at ahead
    exact h.ordered.past ahead.append.le le

theorem past_one (h : At source before (d :: after) c) (low : ¬Beyond d) {lines : Nat}
    (le : lines ≤ 1) : At source (before ++ [d]) after (c.past 1 lines) := by
  have one : (bytesOf [d]).length = 1 := congrArg List.length (bytesOf_cons_ascii low [])
  have split : At source before ([d] ++ after) c := h
  rw [← one] at le ⊢
  exact split.past le

/-- What is pending does not matter to the place. -/
theorem pend (h : At source before after c) (pending : Option TokenKind) :
    At source before after { c with pending := pending } where
  whole := h.whole
  curr_eq := h.curr_eq
  ordered := ⟨h.ordered.start_le, h.ordered.curr_le, h.ordered.line_le⟩

end At

namespace Runs

theorem passByteAt (h : At source before (d :: after) c) (low : ¬Beyond d) :
    Runs source (Scan.passByte source d.toUInt8) c true (c.past 1 0) :=
  passByte h.ordered (bytesOf_cons_ascii low after ▸ h.ahead)

theorem passByteAt_other (h : At source before after c) (low : ¬Beyond d)
    (stops : Stops (· = d) after) : Runs source (Scan.passByte source d.toUInt8) c false c := by
  refine passByte_other h.ordered h.ahead fun b hb he => ?_
  exact of_decide_eq_false ((uniform_eq low).stops stops b hb) ((eq_toUInt8_iff low).mp he)

theorem passWhileAt {p : Char → Bool} (uniform : Uniform p) (zero : p (.ofUInt8 0) = false)
    (h : At source before (body ++ after) c) (inside : ∀ e ∈ body, p e = true)
    (stops : Stops p after) :
    Runs source (Scan.passWhile source p (limit source)) c ()
      (c.past (bytesOf body).length 0) := by
  have ahead := h.ahead
  rw [bytesOf_append] at ahead
  exact passWhile zero h.ordered ahead (uniform.inside inside) (uniform.stops stops)
    ahead.length_lt

/-- The text from the start to the cursor. -/
theorem textAt (start : c.start = (bytesOf before).length)
    (h : At source (before ++ text) after c) :
    Runs source (Scan.textBetween source c.start c.curr) c (String.ofList text) c :=
  textBetween h.ordered (by rw [h.whole, List.append_assoc]) start h.curr_eq

/-! ## Numbers -/

theorem passFraction (h : At source before ('.' :: (d :: body ++ after)) c)
    (digits : ∀ e ∈ d :: body, e.isDigit = true) (stops : Stops Char.isDigit after) :
    Runs source (Scan.passFraction source) c ()
      (c.past (bytesOf ('.' :: d :: body)).length 0) := by
  have point : ¬Beyond '.' := by decide
  have ahead := h.ahead
  rw [bytesOf_cons_ascii point] at ahead
  refine (peek h.ordered ahead).bind ?_
  rw [List.headD_cons, if_pos rfl]
  refine (peekNext h.ordered ahead).bind ?_
  have digit := uniform_isDigit.headD rfl (d :: body ++ after)
  rw [List.tail_cons, digit, List.cons_append, List.head?_cons, Option.any_some,
    if_pos (digits d List.mem_cons_self)]
  have rest := passWhileAt uniform_isDigit rfl (h.past_one point (Nat.zero_le 1)) digits stops
  rw [Cursor.past_past] at rest
  rw [bytesOf_cons_ascii point, List.length_cons, Nat.add_comm]
  exact (advance h.ordered ahead).bind rest

theorem passFraction_none (h : At source before after c) (fraction : ¬Fraction after) :
    Runs source (Scan.passFraction source) c () c := by
  have point : ¬Beyond '.' := by decide
  refine (peek h.ordered h.ahead).bind ?_
  have first := (uniform_eq point).headD (by decide) after
  by_cases pointed : (bytesOf after).headD 0 = '.'.toUInt8
  · rw [if_pos pointed]
    rw [(eq_toUInt8_iff point).mp pointed] at first
    cases after with
    | nil => exact absurd first (by decide)
    | cons e after =>
      obtain rfl : e = '.' := of_decide_eq_true first.symm
      refine (peekNext h.ordered h.ahead).bind ?_
      have digit := uniform_isDigit.headD rfl after
      rw [bytesOf_cons_ascii point, List.tail_cons, digit, if_neg ?_]
      · exact .pure () c
      · intro hd
        obtain ⟨e, he, hd⟩ := (Option.any_eq_true _ _).mp hd
        obtain ⟨more, rfl⟩ := List.head?_eq_some_iff.mp he
        exact fraction ⟨e, more, rfl, hd⟩
  · rw [if_neg pointed]
    exact .pure () c

/-- Digits are passed as they are cut. -/
theorem passNumber (h : At source before cs c) : ∃ c',
    Runs source (Scan.passWhile source Char.isDigit (limit source)) c () c' ∧
      Runs source (Scan.passFraction source) c' ()
        (c.past (bytesOf (cutNumber cs).1).length 0) := by
  have digits (cs : List Char) : ∀ e ∈ cs.takeWhile Char.isDigit, e.isDigit = true :=
    fun e he => List.mem_takeWhile_imp he
  have whole := cutNumber_append cs
  rcases cutNumber_cases cs with ⟨he, fraction⟩ | ⟨e, more, hd, he⟩
  · rw [he] at whole ⊢
    rw [← whole] at h
    exact ⟨_, passWhileAt uniform_isDigit rfl h (digits cs) (stops_dropWhile _ cs),
      passFraction_none (h.past (Nat.zero_le _)) fraction⟩
  · rw [he] at whole ⊢
    have split : At source before (cs.takeWhile Char.isDigit ++
        '.' :: (e :: more.takeWhile Char.isDigit ++ more.dropWhile Char.isDigit)) c := by
      rw [← whole, List.append_assoc, List.cons_append] at h
      exact h
    have point : Stops Char.isDigit
        ('.' :: (e :: more.takeWhile Char.isDigit ++ more.dropWhile Char.isDigit)) := by
      rintro _ ⟨⟩
      rfl
    have decimals : ∀ x ∈ e :: more.takeWhile Char.isDigit, x.isDigit = true :=
      List.forall_mem_cons.mpr ⟨hd, digits more⟩
    have last := passFraction (split.past (Nat.zero_le _)) decimals (stops_dropWhile _ more)
    rw [Cursor.past_past, ← List.length_append, ← bytesOf_append] at last
    exact ⟨_, passWhileAt uniform_isDigit rfl split (digits cs) point, last⟩

theorem readNumber (start : c.start = (bytesOf before).length)
    (h : At source (before ++ [d]) cs c) :
    Runs source (Scan.readNumber source) c () { c.past (bytesOf (cutNumber cs).1).length 0 with
      pending := some (.number (numberValue (d :: (cutNumber cs).1))) } := by
  obtain ⟨c', whole, fraction⟩ := passNumber h
  rw [← cutNumber_append cs] at h
  have passed := h.past (Nat.zero_le _)
  rw [List.append_assoc, List.singleton_append] at passed
  have text := textAt (c := c.past _ 0) start passed
  refine whole.bind (fraction.bind ((look _).bind (text.bind ?_)))
  rw [String.toList_ofList]
  exact Runs.pend _ _

/-! ## Words -/

/-- The bytes from the start to the cursor. -/
theorem bytesAt (start : c.start = (bytesOf before).length)
    (h : At source (before ++ text) after c) :
    Runs source (Scan.bytesBetween source c.start c.curr) c (String.ofList text).toByteArray c := by
  have split := h.whole
  rw [List.append_assoc] at split
  rw [← extract_toByteArray split start h.curr_eq]
  exact bytesBetween h.ordered h.ordered.start_le h.ordered.curr_le

theorem readWord (documented : tools.Documented) (start : c.start = (bytesOf before).length)
    (h : At source (before ++ [d]) cs c) :
    Runs source (Scan.readWord source tools) c ()
      { c.past (bytesOf (cs.takeWhile isWordPart)).length 0 with
        pending := some (wordKind (d :: cs.takeWhile isWordPart)) } := by
  have inside : ∀ e ∈ cs.takeWhile isWordPart, isWordPart e = true :=
    fun e he => List.mem_takeWhile_imp he
  have whole := List.takeWhile_append_dropWhile (p := isWordPart) (l := cs)
  rw [← whole] at h
  have passed := h.past (Nat.zero_le _)
  rw [List.append_assoc, List.singleton_append] at passed
  have bytes := bytesAt (c := c.past _ 0) start passed
  refine (passWhileAt uniform_isWordPart rfl h inside (stops_dropWhile _ cs)).bind
    ((look _).bind (bytes.bind ?_))
  rw [documented.keyword_eq, wordKind]
  cases Keyword.ofText? (String.ofList (d :: cs.takeWhile isWordPart)) with
  | some k => exact Runs.pend _ _
  | none => exact Runs.pend _ _

/-! ## Comments and symbols -/

/-- A comment is passed up to the end of its line. -/
theorem passComment (documented : tools.Documented) (h : At source before cs c) :
    Runs source (Scan.passComment source tools) c ()
      (c.past (bytesOf (cs.takeWhile (· ≠ '\n'))).length 0) := by
  have newline : ¬Beyond '\n' := by decide
  have whole := List.takeWhile_append_dropWhile (p := (· ≠ '\n')) (l := cs)
  have inside : ∀ e ∈ cs.takeWhile (· ≠ '\n'), decide (e ≠ '\n') = true :=
    fun e he => List.mem_takeWhile_imp (p := (· ≠ '\n')) he
  have other : '\n'.toUInt8 ∉ bytesOf (cs.takeWhile (· ≠ '\n')) := fun hm => by
    simpa [ofUInt8_toUInt8 newline] using uniform_line.inside inside _ hm
  have stops : ∀ b ∈ (bytesOf (cs.dropWhile (· ≠ '\n'))).head?, b = '\n'.toUInt8 := by
    intro b hb
    have stop := uniform_line.stops (stops_dropWhile _ cs) b hb
    rw [eq_toUInt8_iff newline]
    simpa using stop
  rw [← whole] at h
  have ahead := h.ahead
  rw [bytesOf_append] at ahead
  refine (look c).bind ((bytesBetween h.ordered h.ordered.curr_le (Nat.le_refl _)).bind ?_)
  rcases documented.find_cases ahead.extract other stops with found | ⟨found, none⟩
  · rw [found]
    exact Runs.move _ c
  -- Nothing is left after a comment on the last line, so it ends with the source.
  · have last := ahead.add_length
    rw [none, List.append_nil] at last
    rw [found, show c.past _ 0 = { c with curr := source.toByteArray.size } by rw [← last]; rfl]
    exact Runs.move _ c

theorem readSymbol (documented : tools.Documented) (h : At source before cs c)
    (nothing : c.pending = none) {s : Symbol} (hs : symbol? d = some s) :
    Runs source (Scan.readSymbol source tools s) c ()
      { c.past (bytesOf (cutSymbol d s cs).1.text.tail).length 0 with
        pending := symbolPending (cutSymbol d s cs).1.form } := by
  rcases cutSymbol_cases d s cs with ⟨he, slash, equal⟩ | ⟨ds, rfl, rfl⟩ | ⟨joined, ds, hj, rfl⟩
  · rw [he]
    by_cases hslash : s = .slash
    · rw [Scan.readSymbol, if_pos hslash]
      exact (passByteAt_other h (by decide) (slash hslash)).bind (Runs.pend _ c)
    · rw [Scan.readSymbol, if_neg hslash]
      cases hj : withEqual? s with
      | none => exact Runs.pend _ c
      | some joined =>
        exact (passByteAt_other h (by decide) (equal (by rw [hj]; rfl))).bind (Runs.pend _ c)
  · have slash : ¬Beyond '/' := by decide
    rw [cutSymbol_comment]
    have rest := passComment documented (h.past_one slash (Nat.zero_le 1))
    have length : (bytesOf (('/' :: ds).takeWhile (· ≠ '\n'))).length =
        1 + (bytesOf (ds.takeWhile (· ≠ '\n'))).length := by
      rw [List.takeWhile_cons_of_pos (by decide), bytesOf_cons_ascii slash, List.length_cons,
        Nat.add_comm]
    rw [Cursor.past_past, ← length] at rest
    have nothing' : symbolPending .comment = c.pending := nothing.symm
    show Runs source _ c () { c.past _ 0 with pending := symbolPending .comment }
    rw [Scan.readSymbol, if_pos rfl, nothing']
    exact (passByteAt h slash).bind rest
  · rw [cutSymbol_joined d hj]
    have other : s ≠ .slash := by
      rintro rfl
      cases hj
    rw [Scan.readSymbol, if_neg other, hj]
    exact (passByteAt h (by decide)).bind (Runs.pend _ _)

/-! ## Strings -/

/-- A string is passed with its second quote, and what stands between the quotes is kept. -/
theorem readString (start : c.start = (bytesOf before).length)
    (h : At source (before ++ ['"']) (body ++ '"' :: after) c) (inside : '"' ∉ body) :
    Runs source (Scan.readString source) c none
      { c.past (bytesOf (body ++ ['"'])).length (body.count '\n') with
        pending := some (.string (String.ofList body)) } := by
  have quote : ¬Beyond '"' := by decide
  have ahead := h.ahead
  rw [bytesOf_append, bytesOf_cons_ascii quote] at ahead
  have stops : ∀ b ∈ ('"'.toUInt8 :: bytesOf after).head?, b = '"'.toUInt8 := by
    rintro _ ⟨⟩
    rfl
  have passed := passText h.ordered ahead (quote_not_mem inside) stops ahead.length_lt
  rw [count_bytesOf (by decide)] at passed
  have closing := h.past (count_newline_le body)
  have closed := closing.past_one quote (Nat.zero_le 1)
  have low : c.start + 1 = (bytesOf (before ++ ['"'])).length := by
    rw [bytesOf_append, List.length_append, ← start]
    rfl
  -- The cursor is past the second quote when the text before that quote is cut.
  have text := textBetween closed.ordered h.whole low closing.curr_eq
  have length : (bytesOf (body ++ ['"'])).length = (bytesOf body).length + 1 := by
    rw [bytesOf_append, List.length_append]
    rfl
  rw [length]
  exact passed.bind ((atEnd ahead.append).bind ((advance closing.ordered ahead.append).bind
    ((look _).bind (text.bind ((Runs.pend _ _).bind (.pure none _))))))

/-- A string that is never closed is passed to the end. -/
theorem readString_open (h : At source before body c) (inside : '"' ∉ body) :
    Runs source (Scan.readString source) c
      (some (.lex .unterminatedString (c.line + body.count '\n')))
      (c.past (bytesOf body).length (body.count '\n')) := by
  have ahead : Ahead source c.curr (bytesOf body ++ []) := by
    rw [List.append_nil]
    exact h.ahead
  have passed := passText h.ordered ahead (quote_not_mem inside) nofun ahead.length_lt
  rw [count_bytesOf (by decide)] at passed
  refine passed.bind ((atEnd ahead.append).bind ?_)
  rw [List.isEmpty_nil, if_pos rfl]
  exact (look _).bind (.pure _ _)

/-! ## Other characters -/

theorem logText (h : c.Ordered source) (whole : source.toList = before ++ (body ++ after))
    {low high : Nat} (hl : low = (bytesOf before).length)
    (hh : high = (bytesOf (before ++ body)).length) :
    Runs source (Scan.logText source tools low high) c () c := by
  unfold Scan.logText
  cases tools.logs with
  | false => exact .pure () c
  | true => exact (textBetween h whole hl hh).bind (.pure () c)

/-- An unexpected character is passed from its first byte to its last. -/
theorem passCharacter (start : c.start = (bytesOf before).length) (h : c.Ordered source)
    (line : c.line ≤ c.start + 1) (whole : source.toList = before ++ (d :: after)) :
    Runs source (Scan.passCharacter source tools) c (.lex .unexpectedCharacter c.line)
      { c with curr := c.start + (bytesOf [d]).length } := by
  have rest : source.toList = before ++ ((d :: after) ++ []) := by rw [List.append_nil, whole]
  have size : source.toByteArray.size = (bytesOf (before ++ d :: after)).length := by
    rw [size_toByteArray, whole]
  have width : (((String.ofList (d :: after)).toList.head?.map Char.utf8Size).getD 1) =
      (bytesOf [d]).length := by
    rw [String.toList_ofList, bytesOf_cons, bytesOf_nil, List.append_nil,
      String.length_utf8EncodeChar]
    rfl
  have high : c.start + (bytesOf [d]).length = (bytesOf (before ++ [d])).length := by
    rw [bytesOf_append, List.length_append, start]
  have split : d :: after = [d] ++ after := rfl
  have within : c.start + (bytesOf [d]).length ≤ source.toByteArray.size := by
    rw [size, split, bytesOf_append, bytesOf_append, List.length_append, List.length_append, start]
    omega
  have ordered : Cursor.Ordered source { c with curr := c.start + (bytesOf [d]).length } :=
    ⟨Nat.le_add_right _ _, within, Nat.le_trans line (Nat.succ_le_succ (Nat.le_add_right _ _))⟩
  refine (look c).bind ((textBetween h rest start size).bind ?_)
  rw [width]
  exact (Runs.move _ c).bind ((logText ordered whole start high).bind (.pure _ _))

end Runs

end Lox.Scan
