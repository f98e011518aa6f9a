import Mathlib.Data.List.Chain
import Tigerkin.Http.Basic

/-! # Log patterns

`LogFormatter::init` reads a pattern from left to right, with the position given by the text that is
left: the outer loop collects literal text, and the inner one reads a specifier and its format.
Reading is the inverse of printing (`init_print`). -/

namespace Tigerkin

open Http (bytes)

/-- `isalpha` in the C locale. -/
def isalpha (b : UInt8) : Bool := 65 ≤ b && b ≤ 90 || 97 ≤ b && b ≤ 122

namespace LogFormatter

inductive FormatItem where
  | message | level | elapse | name | threadId | newLine
  | dateTime (format : List UInt8)
  | fileName | line | tab | coId | threadName
  | string (string : List UInt8)
  deriving DecidableEq

/-- `DateTimeFormatItem::DateTimeFormatItem` -/
def FormatItem.ofDateTime (fmt : List UInt8) : FormatItem :=
  .dateTime (if fmt.isEmpty then bytes "%Y-%m-%d %H:%M:%S" else fmt)

def s_format_items : List (List UInt8 × (List UInt8 → FormatItem)) :=
  [(bytes "m", fun _ => .message),
    (bytes "p", fun _ => .level),
    (bytes "r", fun _ => .elapse),
    (bytes "c", fun _ => .name),
    (bytes "t", fun _ => .threadId),
    (bytes "n", fun _ => .newLine),
    (bytes "d", .ofDateTime),
    (bytes "f", fun _ => .fileName),
    (bytes "l", fun _ => .line),
    (bytes "T", fun _ => .tab),
    (bytes "F", fun _ => .coId),
    (bytes "N", fun _ => .threadName)]

/-- What the inner loop leaves: `fmt_status`, `str`, `fmt`, and the pattern from `n` on. -/
structure Specifier where
  fmtStatus : Bool
  str : List UInt8
  fmt : List UInt8
  rest : List UInt8
  deriving DecidableEq

/-- The inner loop at `n`. `text` is the pattern between the percent sign and `n`, and `fmt` the one
between `fmt_begin` and `n`. -/
def readSpecifier : (rest text str fmt : List UInt8) → (fmtStatus : Bool) → Specifier
  | [], _, str, _, fmtStatus => ⟨fmtStatus, str, [], []⟩
  | b :: rest, text, str, fmt, false =>
    if !isalpha b && b != 123 && b != 125 then ⟨false, text, [], b :: rest⟩
    else if b = 123 then readSpecifier rest (text ++ [b]) text [] true
    else
      let text := text ++ [b]
      readSpecifier rest text (if rest.isEmpty && str.isEmpty then text else str) fmt false
  | b :: rest, text, str, fmt, true =>
    if b = 125 then ⟨false, str, fmt, rest⟩
    else
      let text := text ++ [b]
      readSpecifier rest text (if rest.isEmpty && str.isEmpty then text else str) (fmt ++ [b]) true

/-- The variables of the outer loop. -/
structure Scan where
  nstr : List UInt8 := []
  vec : List (List UInt8 × List UInt8 × Nat) := []
  error : Bool := false
  deriving DecidableEq

/-- Literal text that is pending becomes an entry. -/
def Scan.flush (s : Scan) : Scan :=
  if s.nstr.isEmpty then s else { s with nstr := [], vec := s.vec ++ [(s.nstr, [], 0)] }

/-- The outer loop. Each round takes a byte at least, so that the length of the pattern is enough
fuel. -/
def scan : Nat → List UInt8 → Scan → Scan
  | _, [], s => s
  | 0, _, s => s
  | fuel + 1, b :: rest, s =>
    if b ≠ 37 then scan fuel rest { s with nstr := s.nstr ++ [b] }
    else if rest.head? = some 37 then scan fuel rest.tail { s with nstr := s.nstr ++ [37] }
    else
      let x := readSpecifier rest [] [] [] false
      if x.fmtStatus then
        scan fuel rest
          { s with error := true, vec := s.vec ++ [(bytes "<<pattern_error>>", x.fmt, 0)] }
      else
        let s := s.flush
        scan fuel x.rest { s with vec := s.vec ++ [(x.str, x.fmt, 1)] }

end LogFormatter

open LogFormatter

structure LogFormatter where
  pattern : List UInt8
  items : List FormatItem := []
  error : Bool := false
  deriving DecidableEq

namespace LogFormatter

def pushItem (f : LogFormatter) (i : List UInt8 × List UInt8 × Nat) : LogFormatter :=
  if i.2.2 = 0 then { f with items := f.items ++ [.string i.1] }
  else
    match s_format_items.lookup i.1 with
    | none =>
      { f with items := f.items ++ [.string (bytes "<<error_format %" ++ i.1 ++ bytes ">>")]
               error := true }
    | some item => { f with items := f.items ++ [item i.2.1] }

/-- `LogFormatter::LogFormatter`, with `init`. -/
def init (pattern : List UInt8) : LogFormatter :=
  let s := (scan pattern.length pattern {}).flush
  s.vec.foldl pushItem { pattern, error := s.error }

def isError (f : LogFormatter) : Bool := f.error

/-! ## Printing -/

/-- The letters of the table of formats, by what they stand for. -/
inductive Letter where
  | m | p | r | c | t | n | d | f | l | T | F | N
  deriving DecidableEq

namespace Letter

def byte : Letter → UInt8
  | m => 109 | p => 112 | r => 114 | c => 99 | t => 116 | n => 110
  | d => 100 | f => 102 | l => 108 | T => 84 | F => 70 | N => 78

def item : Letter → List UInt8 → FormatItem
  | m, _ => .message
  | p, _ => .level
  | r, _ => .elapse
  | c, _ => .name
  | t, _ => .threadId
  | n, _ => .newLine
  | d, fmt => .ofDateTime fmt
  | f, _ => .fileName
  | l, _ => .line
  | T, _ => .tab
  | F, _ => .coId
  | N, _ => .threadName

theorem byte_alpha (x : Letter) : isalpha x.byte = true := by
  cases x <;> rfl

theorem byte_ne (x : Letter) : x.byte ≠ 123 := by
  cases x <;> decide

theorem byte_ne_percent (x : Letter) : x.byte ≠ 37 := by
  cases x <;> decide

theorem lookup_item (x : Letter) : s_format_items.lookup [x.byte] = some x.item := by
  cases x <;> rfl

end Letter

inductive Item where
  | literal (text : List UInt8)
  | bare (x : Letter)
  | formatted (x : Letter) (fmt : List UInt8)
  deriving DecidableEq

namespace Item

def escape (text : List UInt8) : List UInt8 :=
  text.flatMap fun b => if b = 37 then [37, 37] else [b]

def print : Item → List UInt8
  | literal text => escape text
  | bare x => [37, x.byte]
  | formatted x fmt => 37 :: x.byte :: 123 :: (fmt ++ [125])

def formatItem : Item → FormatItem
  | literal text => .string text
  | bare x => x.item []
  | formatted x fmt => x.item fmt

def Valid : Item → Prop
  | literal text => text ≠ []
  | bare _ => True
  | formatted _ fmt => 125 ∉ fmt

instance : (i : Item) → Decidable i.Valid
  | literal text => inferInstanceAs (Decidable (text ≠ []))
  | bare _ => .isTrue trivial
  | formatted _ fmt => inferInstanceAs (Decidable (125 ∉ fmt))

/-- A byte that ends a bare specifier. -/
def Ends (b : UInt8) : Prop := isalpha b = false ∧ b ≠ 123 ∧ b ≠ 125

instance (b : UInt8) : Decidable (Ends b) := inferInstanceAs (Decidable (_ ∧ _))

/-- The second item can stand right after the first. -/
def Follows : Item → Item → Prop
  | literal _, literal _ => False
  | bare _, literal text => ∀ b ∈ text.head?, Ends b
  | _, _ => True

instance : (i j : Item) → Decidable (i.Follows j)
  | literal _, literal _ => .isFalse id
  | bare _, literal text => inferInstanceAs (Decidable (∀ b ∈ text.head?, Ends b))
  | literal _, bare _ | literal _, formatted _ _ => .isTrue trivial
  | bare _, bare _ | bare _, formatted _ _ => .isTrue trivial
  | formatted _ _, _ => .isTrue trivial

end Item

def print (items : List Item) : List UInt8 := items.flatMap Item.print

structure WellFormed (items : List Item) : Prop where
  valid : ∀ i ∈ items, i.Valid
  follows : items.IsChain Item.Follows

variable {rest text str fmt : List UInt8} {fuel : Nat} {s : Scan} {x : Letter}

/-! ## Reading what was printed -/

/-- A byte of the name, before the format. -/
theorem readSpecifier_name (b : UInt8) (rest text str fmt : List UInt8) :
    readSpecifier (b :: rest) text str fmt false =
      if !isalpha b && b != 123 && b != 125 then ⟨false, text, [], b :: rest⟩
      else if b = 123 then readSpecifier rest (text ++ [b]) text [] true
      else readSpecifier rest (text ++ [b])
        (if rest.isEmpty && str.isEmpty then text ++ [b] else str) fmt false :=
  rfl

/-- A byte of the format. -/
theorem readSpecifier_fmt (b : UInt8) (rest text str fmt : List UInt8) :
    readSpecifier (b :: rest) text str fmt true =
      if b = 125 then ⟨false, str, fmt, rest⟩
      else readSpecifier rest (text ++ [b])
        (if rest.isEmpty && str.isEmpty then text ++ [b] else str) (fmt ++ [b]) true :=
  rfl

theorem scan_cons (fuel : Nat) (b : UInt8) (rest : List UInt8) (s : Scan) :
    scan (fuel + 1) (b :: rest) s =
      if b ≠ 37 then scan fuel rest { s with nstr := s.nstr ++ [b] }
      else if rest.head? = some 37 then scan fuel rest.tail { s with nstr := s.nstr ++ [37] }
      else if (readSpecifier rest [] [] [] false).fmtStatus then
        scan fuel rest
          { s with
            error := true
            vec := s.vec ++
              [(bytes "<<pattern_error>>", (readSpecifier rest [] [] [] false).fmt, 0)] }
      else
        scan fuel (readSpecifier rest [] [] [] false).rest
          { s.flush with
            vec := s.flush.vec ++ [((readSpecifier rest [] [] [] false).str,
              (readSpecifier rest [] [] [] false).fmt, 1)] } :=
  rfl

/-- The inner loop goes past the letter. -/
theorem readSpecifier_letter (x : Letter) (rest : List UInt8) :
    readSpecifier (x.byte :: rest) [] [] [] false =
      readSpecifier rest [x.byte] (if rest.isEmpty then [x.byte] else []) [] false := by
  simp [readSpecifier_name, x.byte_alpha, x.byte_ne]

theorem readSpecifier_bare (x : Letter) (h : ∀ b ∈ rest.head?, Item.Ends b) :
    readSpecifier (x.byte :: rest) [] [] [] false = ⟨false, [x.byte], [], rest⟩ := by
  rw [readSpecifier_letter]
  cases rest with
  | nil => rfl
  | cons b rest =>
    obtain ⟨halpha, hopen, hclose⟩ := h b rfl
    rw [readSpecifier_name, if_pos (by simp [halpha, hopen, hclose])]

theorem readSpecifier_format (hstr : str ≠ []) (hfmt : 125 ∉ fmt) (text read : List UInt8) :
    readSpecifier (fmt ++ 125 :: rest) text str read true = ⟨false, str, read ++ fmt, rest⟩ := by
  induction fmt generalizing text read with
  | nil => rw [List.nil_append, readSpecifier_fmt, if_pos rfl, List.append_nil]
  | cons b fmt ih =>
    obtain ⟨hb, hfmt⟩ := not_or.mp (mt List.mem_cons.mpr hfmt)
    rw [List.cons_append, readSpecifier_fmt, if_neg (Ne.symm hb)]
    simp only [List.isEmpty_eq_false_iff.mpr hstr, Bool.and_false, Bool.false_eq_true, if_false]
    rw [ih hfmt, List.append_assoc, List.singleton_append]

theorem readSpecifier_formatted (x : Letter) (hfmt : 125 ∉ fmt) :
    readSpecifier (x.byte :: 123 :: (fmt ++ 125 :: rest)) [] [] [] false =
      ⟨false, [x.byte], fmt, rest⟩ := by
  rw [readSpecifier_letter, readSpecifier_name, if_neg (by decide), if_pos rfl,
    readSpecifier_format (List.cons_ne_nil _ _) hfmt, List.nil_append]

theorem readSpecifier_length (rest text str fmt : List UInt8) (fmtStatus : Bool) :
    (readSpecifier rest text str fmt fmtStatus).rest.length ≤ rest.length := by
  induction rest generalizing text str fmt fmtStatus with
  | nil => exact Nat.le_refl _
  | cons b rest ih =>
    cases fmtStatus with
    | false =>
      rw [readSpecifier_name]
      split
      · exact Nat.le_refl _
      · split
        · exact Nat.le_succ_of_le (ih ..)
        · exact Nat.le_succ_of_le (ih ..)
    | true =>
      rw [readSpecifier_fmt]
      split
      · exact Nat.le_succ _
      · exact Nat.le_succ_of_le (ih ..)

/-- More fuel than bytes makes no difference. -/
theorem scan_fuel {m : Nat} (s : Scan) (hn : rest.length ≤ fuel) (hm : rest.length ≤ m) :
    scan fuel rest s = scan m rest s := by
  induction fuel generalizing rest m s with
  | zero =>
    obtain rfl := List.length_eq_zero_iff.mp (Nat.le_zero.mp hn)
    cases m <;> rfl
  | succ fuel ih =>
    cases rest with
    | nil => cases m <;> rfl
    | cons b rest =>
      obtain ⟨m, rfl⟩ := Nat.exists_eq_succ_of_ne_zero (Nat.ne_of_gt (Nat.lt_of_lt_of_le
        (Nat.succ_pos _) hm))
      have hn := Nat.le_of_succ_le_succ hn
      have hm := Nat.le_of_succ_le_succ hm
      have htail : rest.tail.length ≤ rest.length := by
        rw [List.length_tail]
        exact Nat.sub_le ..
      have hspec := readSpecifier_length rest [] [] [] false
      simp only [scan_cons]
      rw [ih _ hn hm, ih _ (htail.trans hn) (htail.trans hm), ih _ hn hm,
        ih _ (hspec.trans hn) (hspec.trans hm)]

/-- The outer loop to the end of the pattern. -/
def scanAll (pattern : List UInt8) (s : Scan) : Scan := scan pattern.length pattern s

theorem scanAll_byte {b : UInt8} (hb : b ≠ 37) (rest : List UInt8) (s : Scan) :
    scanAll (b :: rest) s = scanAll rest { s with nstr := s.nstr ++ [b] } := by
  rw [scanAll, List.length_cons, scan_cons, if_pos hb]
  rfl

theorem scanAll_percent (rest : List UInt8) (s : Scan) :
    scanAll (37 :: 37 :: rest) s = scanAll rest { s with nstr := s.nstr ++ [37] } := by
  rw [scanAll, List.length_cons, scan_cons, if_neg (absurd rfl), List.head?_cons, if_pos rfl]
  exact scan_fuel _ (Nat.le_succ _) (Nat.le_refl _)

theorem scanAll_specifier (h : readSpecifier rest [] [] [] false = ⟨false, str, fmt, text⟩)
    (hhead : rest.head? ≠ some 37) (s : Scan) :
    scanAll (37 :: rest) s =
      scanAll text { s.flush with vec := s.flush.vec ++ [(str, fmt, 1)] } := by
  have hlen := readSpecifier_length rest [] [] [] false
  rw [h] at hlen
  rw [scanAll, List.length_cons, scan_cons, if_neg (absurd rfl), if_neg hhead, h]
  exact scan_fuel _ hlen (Nat.le_refl _)

theorem scanAll_escape (text rest : List UInt8) (s : Scan) :
    scanAll (Item.escape text ++ rest) s = scanAll rest { s with nstr := s.nstr ++ text } := by
  induction text generalizing s with
  | nil =>
    rw [List.append_nil]
    rfl
  | cons b text ih =>
    rw [Item.escape, List.flatMap_cons, ← Item.escape, List.append_assoc]
    by_cases hb : b = 37
    · subst hb
      rw [if_pos rfl, List.cons_append, List.cons_append, List.nil_append, scanAll_percent, ih,
        List.append_assoc, List.singleton_append]
    · rw [if_neg hb, List.cons_append, List.nil_append, scanAll_byte hb, ih, List.append_assoc,
        List.singleton_append]

namespace Scan

theorem flush_nstr (s : Scan) : s.flush.nstr = [] := by
  unfold flush
  split
  · exact List.isEmpty_iff.mp ‹_›
  · rfl

theorem flush_error (s : Scan) : s.flush.error = s.error := by
  unfold flush
  split <;> rfl

theorem flush_of_nil (h : s.nstr = []) : s.flush = s := by
  rw [flush, h]
  rfl

theorem flush_literal (h : s.nstr = []) (hne : text ≠ []) :
    flush { s with nstr := s.nstr ++ text } =
      { s with vec := s.vec ++ [(text, [], 0)] } := by
  rw [flush, h, List.nil_append, if_neg (mt List.isEmpty_iff.mp hne), ← h]

end Scan

namespace Item

def entry : Item → List UInt8 × List UInt8 × Nat
  | literal text => (text, [], 0)
  | bare x => ([x.byte], [], 1)
  | formatted x fmt => ([x.byte], fmt, 1)

/-- What follows a bare specifier ends it. -/
theorem print_ends {items : List Item} (hvalid : ∀ i ∈ items, i.Valid)
    (h : ∀ i ∈ items.head?, (bare x).Follows i) :
    ∀ b ∈ (LogFormatter.print items).head?, Ends b := by
  intro b hb
  cases items with
  | nil => cases hb
  | cons i items =>
    have hfollows := h i rfl
    have hi := hvalid i List.mem_cons_self
    cases i with
    | literal text =>
      obtain ⟨c, text, rfl⟩ := List.exists_cons_of_ne_nil hi
      have hbc : b = c := by
        by_cases hc : c = 37
        · subst hc
          exact (Option.some.inj hb).symm
        · simpa [LogFormatter.print, print, escape, hc, eq_comm] using hb
      exact hbc ▸ hfollows c rfl
    | bare y =>
      cases hb
      exact ⟨rfl, by decide, by decide⟩
    | formatted y fmt =>
      cases hb
      exact ⟨rfl, by decide, by decide⟩

end Item

theorem WellFormed.tail {i : Item} {items : List Item} (h : WellFormed (i :: items)) :
    WellFormed items :=
  ⟨fun j hj => h.valid j (List.mem_cons_of_mem _ hj), (List.isChain_cons.mp h.follows).2⟩

/-- The outer loop on what was printed. The invariant is that literal text is pending only before an
item that is not a literal. -/
theorem scanAll_print {items : List Item} (h : WellFormed items)
    (hs : s.nstr = [] ∨ ∀ text, .literal text ∉ items.head?) :
    (scanAll (print items) s).flush.vec = s.flush.vec ++ items.map Item.entry ∧
      (scanAll (print items) s).error = s.error := by
  induction items generalizing s with
  | nil => exact ⟨(List.append_nil _).symm, rfl⟩
  | cons i items ih =>
    have hvalid := h.valid i List.mem_cons_self
    have hfollows := (List.isChain_cons.mp h.follows).1
    have hspecifier : ∀ e, (scanAll (print items)
          { s.flush with vec := s.flush.vec ++ [e] }).flush.vec =
          s.flush.vec ++ e :: items.map Item.entry ∧
        (scanAll (print items) { s.flush with vec := s.flush.vec ++ [e] }).error = s.error := by
      intro e
      have hnil : Scan.nstr { s.flush with vec := s.flush.vec ++ [e] } = [] := s.flush_nstr
      obtain ⟨hvec, herror⟩ := ih h.tail (.inl hnil)
      rw [Scan.flush_of_nil hnil, List.append_assoc] at hvec
      exact ⟨hvec, herror.trans s.flush_error⟩
    rw [List.map_cons, print, List.flatMap_cons, ← print]
    cases i with
    | literal text =>
      have hnil := hs.resolve_right fun h => h text rfl
      rw [Item.print, scanAll_escape]
      obtain ⟨hvec, herror⟩ := ih h.tail (.inr fun t ht => hfollows _ ht)
        (s := { s with nstr := s.nstr ++ text })
      rw [Scan.flush_literal hnil hvalid, List.append_assoc] at hvec
      rw [Scan.flush_of_nil hnil]
      exact ⟨hvec, herror⟩
    | bare x =>
      have hread := readSpecifier_bare x (Item.print_ends h.tail.valid hfollows)
      rw [Item.print, List.cons_append, List.cons_append, List.nil_append,
        scanAll_specifier hread (by simp [x.byte_ne_percent])]
      exact hspecifier _
    | formatted x fmt =>
      rw [Item.print, List.cons_append, List.cons_append, List.cons_append, List.append_assoc,
        List.singleton_append, scanAll_specifier (readSpecifier_formatted x hvalid)
          (by simp [x.byte_ne_percent])]
      exact hspecifier _

theorem pushItem_entry (f : LogFormatter) {i : Item} :
    f.pushItem i.entry = { f with items := f.items ++ [i.formatItem] } := by
  cases i with
  | literal text => rfl
  | bare x =>
    rw [pushItem, Item.entry, if_neg Nat.one_ne_zero, x.lookup_item]
    rfl
  | formatted x fmt =>
    rw [pushItem, Item.entry, if_neg Nat.one_ne_zero, x.lookup_item]
    rfl

theorem foldl_pushItem (f : LogFormatter) (items : List Item) :
    (items.map Item.entry).foldl pushItem f =
      { f with items := f.items ++ items.map Item.formatItem } := by
  induction items generalizing f with
  | nil => simp
  | cons i items ih =>
    rw [List.map_cons, List.foldl_cons, pushItem_entry, ih, List.append_assoc]
    rfl

/-- **Reading a pattern inverts printing it**: its entries, and the items that they make. -/
theorem init_print {items : List Item} (h : WellFormed items) :
    (scanAll (print items) {}).flush.vec = items.map Item.entry ∧
      (init (print items)).items = items.map Item.formatItem ∧
      (init (print items)).isError = false := by
  obtain ⟨hvec, herror⟩ := scanAll_print h (s := {}) (.inl rfl)
  replace hvec := hvec.trans (List.nil_append _)
  rw [init, ← scanAll, hvec, Scan.flush_error, herror, foldl_pushItem]
  exact ⟨rfl, rfl, rfl⟩

/-- `%d{%H}%T[100%%]%n` -/
theorem init_print_percent :
    (scanAll (bytes "%d\x7b%H\x7d%T[100%%]%n") {}).flush.vec =
        [(bytes "d", bytes "%H", 1), (bytes "T", [], 1), (bytes "[100%]", [], 0),
          (bytes "n", [], 1)] ∧
      (init (bytes "%d\x7b%H\x7d%T[100%%]%n")).items =
        [.dateTime (bytes "%H"), .tab, .string (bytes "[100%]"), .newLine] ∧
      (init (bytes "%d\x7b%H\x7d%T[100%%]%n")).isError = false :=
  have h : WellFormed [.formatted .d (bytes "%H"), .bare .T, .literal (bytes "[100%]"), .bare .n] :=
    ⟨by decide +kernel, by decide +kernel⟩
  init_print h

end LogFormatter

end Tigerkin
