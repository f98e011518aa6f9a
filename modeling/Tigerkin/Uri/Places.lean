import Tigerkin.Uri.Grammar

/-! # Where the actions of the grammar are executed

Every embedding of `main` has one place (`emits_iff`). What was read before it and what may follow
it are properties of the grammar, and are computed: how many slashes there are, whether there is a
question mark or a number sign, and what a component can end with. `opens` lists the embeddings of
marks that belong to a component, which the next embedding saves. -/

namespace Tigerkin.UriParser

open Ragel

variable {n : Nat} {u v w : List UInt8} {c : UInt8} {x : Option UInt8}

/-- What is read before an embedding, and what has to go on after it. -/
@[irreducible] def place (n : Nat) : Expr UInt8 × Expr UInt8 :=
  (main.places n).headD (.plain .lambda, .plain .lambda)

theorem places_eq (hn : n < acts.length) : main.places n = [place n] := by
  have hlength : ∀ n < acts.length, (main.places n).length = 1 := by decide +kernel
  obtain ⟨t, ht⟩ := List.length_eq_one_iff.mp (hlength n hn)
  rw [place, ht]
  rfl

theorem emits_iff (hn : n < acts.length) :
    main.Emits n w x ↔ w ∈ (place n).1.lang ∧ (place n).2.goes x = true := by
  rw [Expr.emits_iff, places_eq hn]
  simp

/-! ## What was read -/

/-- The embeddings before the query, before the fragment, and before the path. -/
def beforeQuery : List Nat := [0, 1, 2, 3, 4, 5, 6, 7, 8, 9, 14, 15, 16, 17, 18, 19]

def beforeFragment : List Nat := beforeQuery ++ [10, 11, 20, 21]

def beforePath : List Nat := [2, 3, 4, 5, 6, 7, 8, 14, 15, 16, 17, 18, 19]

theorem notMem_of_most {e : Expr UInt8} (h : e.most c = some 0) (hw : w ∈ e.lang) : c ∉ w :=
  List.count_eq_zero.mp (Nat.le_zero.mp (Expr.count_le_most h hw))

theorem mem_of_least {e : Expr UInt8} (h : 1 ≤ e.least c) (hw : w ∈ e.lang) : c ∈ w :=
  List.count_pos_iff.mp (h.trans (Expr.least_le_count hw))

/-- How often the delimiters are read before an embedding, by the part of the reference that the
embedding belongs to. -/
theorem delim_counts :
    (∀ n ∈ beforeFragment, (place n).1.most (byte '#') = some 0) ∧
    (∀ n ∈ [12, 13, 22, 23], 1 ≤ (place n).1.least (byte '#')) ∧
    (∀ n ∈ beforeQuery, (place n).1.most (byte '?') = some 0) ∧
    (∀ n ∈ [10, 11, 20, 21], 1 ≤ (place n).1.least (byte '?')) ∧
    (∀ n ∈ [0, 1], (place n).1.most (byte '/') = some 0) ∧
    (∀ n ∈ beforePath, (place n).1.most (byte '/') = some 2 ∧
      2 ≤ (place n).1.least (byte '/')) := by
  decide +kernel

theorem hash_notMem (hn : n ∈ beforeFragment) (hw : w ∈ (place n).1.lang) : byte '#' ∉ w := by
  obtain ⟨hmost, -⟩ := delim_counts
  exact notMem_of_most (hmost n hn) hw

theorem hash_mem (hn : n ∈ [12, 13, 22, 23]) (hw : w ∈ (place n).1.lang) : byte '#' ∈ w := by
  obtain ⟨-, hleast, -⟩ := delim_counts
  exact mem_of_least (hleast n hn) hw

theorem question_notMem (hn : n ∈ beforeQuery) (hw : w ∈ (place n).1.lang) : byte '?' ∉ w := by
  obtain ⟨-, -, hmost, -⟩ := delim_counts
  exact notMem_of_most (hmost n hn) hw

theorem question_mem (hn : n ∈ [10, 11, 20, 21]) (hw : w ∈ (place n).1.lang) : byte '?' ∈ w := by
  obtain ⟨-, -, -, hleast, -⟩ := delim_counts
  exact mem_of_least (hleast n hn) hw

theorem slash_notMem (hn : n ∈ [0, 1]) (hw : w ∈ (place n).1.lang) : byte '/' ∉ w := by
  obtain ⟨-, -, -, -, hmost, -⟩ := delim_counts
  exact notMem_of_most (hmost n hn) hw

theorem count_slash (hn : n ∈ beforePath) (hw : w ∈ (place n).1.lang) :
    w.count (byte '/') = 2 := by
  obtain ⟨-, -, -, -, -, htwo⟩ := delim_counts
  obtain ⟨hmost, hleast⟩ := htwo n hn
  exact le_antisymm (Expr.count_le_most hmost hw) (hleast.trans (Expr.least_le_count hw))

/-! ## What follows -/

/-- The embeddings whose actions reset the mark. -/
def nulls : List Nat := [1, 3, 7, 9, 11, 13, 15, 19, 21, 23]

/-- What the components that they save can end with. -/
def follows : Nat → List (Option UInt8)
  | 1 => [some (byte ':')]
  | 3 | 15 => [some (byte '@')]
  | 7 | 19 => [some (byte '/'), some (byte '?'), some (byte '#'), none]
  | 9 => [some (byte '?'), some (byte '#'), none]
  | 11 | 21 => [some (byte '#'), none]
  | _ => [none]

theorem goes_pathAbempty (x : Option UInt8) :
    pathAbempty.goes x = true ↔ x = some (byte '/') ∨ x = none := by
  cases x <;> simp [pathAbempty, slashSegment, chr, Re.opt, Re.goes]

theorem goes_null (hn : n ∈ nulls) (x : Option UInt8) :
    (place n).2.goes x = true ↔ x ∈ follows n := by
  have hall : ∀ n ∈ nulls, ∀ x, (place n).2.goes x = true ↔ x ∈ follows n := by
    simp only [nulls, List.forall_mem_cons, Option.forall]
    simp [place, main, uri, relativeRef, hierPart, relativePart, authority, query, fragment,
      Expr.places, Expr.opt, Expr.goes, Re.goes, chr, goes_pathAbempty, follows, or_assoc]
  exact hall n hn x

/-! ## Components -/

def opens : List Nat := [0, 6, 8, 10, 12, 18, 20, 22]

/-- The letters of a query or a fragment. -/
def queryLetters : Re UInt8 := .star (.any [pchar, chr '/', chr '?'])

/-- The component that begins at an embedding of `opens`. -/
def component : Nat → Re UInt8
  | 0 => scheme
  | 6 | 18 => port
  | 8 => pathAbempty
  | _ => queryLetters

theorem lang_save : ∀ n ∈ opens,
    (place (n + 1)).1.lang = (place n).1.lang * (component n).lang := by
  simp only [opens, List.forall_mem_cons]
  simp [place, main, uri, relativeRef, hierPart, relativePart, authority, query, fragment,
    Expr.places, Expr.opt, Expr.lang, Re.lang, component, queryLetters, mul_assoc]

theorem goes_component (hn : n ∈ opens) (h : (component n).goes x = true) :
    (place n).2.goes x = true := by
  have hall : ∀ n ∈ opens, ∀ x, (component n).goes x = true → (place n).2.goes x = true := by
    simp only [opens, List.forall_mem_cons, Option.forall]
    simp +contextual [place, main, uri, relativeRef, hierPart, relativePart, authority, query,
      fragment, Expr.places, Expr.opt, Expr.goes, Re.goes, chr, goes_pathAbempty, component,
      scheme, queryLetters]
  exact hall n hn x h

/-- Before what a component can end with, an empty component is entered as well as left. -/
theorem goes_open (hn : n ∈ opens) (h : x ∈ follows (n + 1))
    (hempty : (component n).goes none = true) : (place n).2.goes x = true := by
  have hall : ∀ n ∈ opens, (component n).goes none = true → ∀ x ∈ follows (n + 1),
      (place n).2.goes x = true := by
    simp only [opens, List.forall_mem_cons]
    simp [place, main, uri, relativeRef, hierPart, relativePart, authority, query, fragment,
      Expr.places, Expr.opt, Expr.goes, Re.goes, chr, goes_pathAbempty, component, scheme, port,
      queryLetters, follows]
  exact hall n hn hempty x h

end Tigerkin.UriParser
