import Lox.Proofs.Grammar.Acceptance
import Lox.Proofs.Grammar.Relabelling
import Lox.Proofs.Token.LongestMatch

/-!
# Sources that are joined

A source that ends outside of a string can be continued after a line break. What is scanned then
is what is scanned in each part alone, the lines of the second one counted on.
-/
namespace Lox

namespace Scan

/-! ## The pieces -/

/-- A line break stops every piece but an open string. -/
theorem continues_newline (cs ds : List Char) : Continues cs (cs ++ '\n' :: ds) := by
  have stops {p : Char → Bool} (newline : p '\n' = false) (h : Stops p cs) :
      Stops p (cs ++ '\n' :: ds) := by
    cases cs with
    | nil =>
      rintro _ ⟨⟩
      exact newline
    | cons c cs => exact h
  refine ⟨stops rfl, stops rfl, stops rfl, stops rfl, stops rfl, fun none fraction => ?_⟩
  obtain ⟨d, es, he, digit⟩ := fraction
  match cs with
  | [] => cases he
  | [c] =>
    cases he
    cases digit
  | c :: c' :: cs =>
    cases he
    exact none ⟨_, _, rfl, digit⟩

theorem pieces_join {cs : List Char} (closed : ∀ p ∈ pieces cs, p.form ≠ .openString)
    (ds : List Char) :
    pieces (cs ++ '\n' :: ds) = pieces cs ++ ⟨.blank, ['\n']⟩ :: pieces ds := by
  induction cs using pieces.induct with
  | case1 =>
    have none : pieces [] = [] := by rw [pieces]
    have newline : cut '\n' ds = (⟨.blank, ['\n']⟩, ds) := rfl
    rw [none, List.nil_append, List.nil_append, pieces, newline]
  | case2 c cs ih =>
    rw [pieces] at closed
    have closed := List.forall_mem_cons.mp closed
    have again := cut_continues (continues_newline (cut c cs).2 ds) closed.1
    rw [← List.append_assoc, cut_tail] at again
    rw [List.cons_append, pieces, again, ih closed.2, pieces, List.cons_append]

/-! ## The items -/

/-- An item on another line. -/
def moved (line : Nat → Nat) : Except Fault Token → Except Fault Token
  | .ok t => .ok (t.moved line)
  | .error f => .error (f.moved line)

theorem item?_moved (p : Piece) (k line : Nat) :
    p.item? (k + line) = (p.item? line).map (moved (k + ·)) := by
  obtain ⟨form, text⟩ := p
  cases form <;> rfl

theorem items_moved (k line : Nat) (ps : List Piece) :
    items (k + line) ps = (items line ps).map (moved (k + ·)) := by
  induction ps generalizing line with
  | nil => rfl
  | cons p ps ih =>
    rw [items, items, Nat.add_assoc, item?_moved, ih]
    cases p.item? (line + p.text.count '\n') <;> rfl

theorem closed_of_errorsOnly {line : Nat} {ps : List Piece} (h : errorsOnly (items line ps) = []) :
    ∀ p ∈ ps, p.form ≠ .openString := by
  induction ps generalizing line with
  | nil => exact fun _ hp => nomatch hp
  | cons first ps ih =>
    rw [items] at h
    refine List.forall_mem_cons.mpr ⟨fun opened => ?_, ?_⟩
    · rw [Piece.item?, opened] at h
      cases h
    · cases hi : first.item? (line + first.text.count '\n') with
      | none =>
        rw [hi] at h
        exact ih h
      | some item =>
        rw [hi] at h
        cases item with
        | ok t => exact ih h
        | error f => cases h

end Scan

/-- Where a line of a source is once it stands behind another source and a line break. -/
def shift (first : String) (line : Nat) : Nat := 1 + first.toList.count '\n' + line

/-- What is scanned of two sources that are joined by a line break. -/
theorem scan_join {first : String} (clean : errorsOnly (scan first) = []) (second : String) :
    ∃ (found : List (Except Fault Token)) (last : Token),
      scan first = found ++ [.ok last] ∧ last.kind = .endOfInput ∧
        (∀ t, .ok t ∈ found → t.kind ≠ .endOfInput) ∧
        scan (first ++ "\n" ++ second) =
          found ++ (scan second).map (Scan.moved (shift first)) := by
  have scanned := Scan.items_lineAfter [] (Scan.pieces first.toList)
  have joined := Scan.items_append [] (Scan.pieces first.toList)
    (⟨.blank, ['\n']⟩ :: Scan.pieces second.toList)
  have text : (first ++ "\n" ++ second).toList = first.toList ++ '\n' :: second.toList := by
    simp
  have after : Scan.lineAfter (Scan.pieces first.toList) = 1 + first.toList.count '\n' := by
    rw [Scan.lineAfter, Scan.flatMap_text_pieces]
  have later : Scan.items (Scan.lineAfter (Scan.pieces first.toList))
      (⟨.blank, ['\n']⟩ :: Scan.pieces second.toList) =
        (scan second).map (Scan.moved (shift first)) := by
    rw [after]
    exact Scan.items_moved _ 1 (Scan.pieces second.toList)
  rw [List.nil_append, later, ← Scan.pieces_join (Scan.closed_of_errorsOnly clean), ← text] at joined
  exact ⟨_, _, scanned, rfl, Scan.not_end_of_tells (Scan.length_itemsAfter [] _)
    ((Scan.cuts_pieces first.toList).tells []), joined⟩

theorem okOnly_append {ε α : Type} (a b : List (Except ε α)) :
    okOnly (a ++ b) = okOnly a ++ okOnly b :=
  List.filterMap_append

theorem errorsOnly_append {ε α : Type} (a b : List (Except ε α)) :
    errorsOnly (a ++ b) = errorsOnly a ++ errorsOnly b := by
  induction a with
  | nil => rfl
  | cons item a ih =>
    cases item with
    | ok v => exact ih
    | error e => exact congrArg (List.cons e) ih

theorem okOnly_moved (line : Nat → Nat) (items : List (Except Fault Token)) :
    okOnly (items.map (Scan.moved line)) = (okOnly items).map (Token.moved line) := by
  induction items with
  | nil => rfl
  | cons item items ih =>
    cases item with
    | ok t => exact congrArg (List.cons (t.moved line)) ih
    | error e => exact ih

theorem errorsOnly_moved (line : Nat → Nat) (items : List (Except Fault Token)) :
    errorsOnly (items.map (Scan.moved line)) = (errorsOnly items).map (Fault.moved line) := by
  induction items with
  | nil => rfl
  | cons item items ih =>
    cases item with
    | ok t => exact ih
    | error e => exact congrArg (List.cons (e.moved line)) ih

open Grammar (readable)

theorem readable_append {before : List Token} (inner : ∀ t ∈ before, t.kind ≠ .endOfInput)
    (after : List Token) : readable (before ++ after) = before ++ readable after :=
  List.takeWhile_append_of_pos fun t ht => decide_eq_true (inner t ht)

theorem readable_moved (line : Nat → Nat) (tokens : List Token) :
    readable (tokens.map (Token.moved line)) = (readable tokens).map (Token.moved line) :=
  List.takeWhile_map ..

/-- The tokens that are read of two sources that are joined. -/
theorem readable_join {first : String} (clean : errorsOnly (scan first) = []) (second : String) :
    readable (okOnly (scan (first ++ "\n" ++ second))) =
        readable (okOnly (scan first)) ++
          (readable (okOnly (scan second))).map (Token.moved (shift first)) ∧
      errorsOnly (scan (first ++ "\n" ++ second)) =
        (errorsOnly (scan second)).map (Fault.moved (shift first)) := by
  obtain ⟨found, last, scanned, ends, inner, joined⟩ := scan_join clean second
  rw [scanned, errorsOnly_append] at clean
  have inner' : ∀ t ∈ okOnly found, t.kind ≠ .endOfInput := fun t ht => by
    obtain ⟨item, hi, he⟩ := List.mem_filterMap.mp ht
    cases item with
    | error e => cases he
    | ok t =>
      cases he
      exact inner t hi
  have closing : readable (okOnly [(.ok last : Except Fault Token)]) = [] := by
    show ([last].takeWhile (·.kind ≠ .endOfInput)) = []
    rw [List.takeWhile_cons, if_neg (by simp [ends])]
  constructor
  · rw [joined, scanned, okOnly_append, okOnly_append, readable_append inner',
      readable_append inner', closing, List.append_nil, okOnly_moved, readable_moved]
  · rw [joined, errorsOnly_append, (List.append_eq_nil_iff.mp clean).1, List.nil_append,
      errorsOnly_moved]

end Lox
