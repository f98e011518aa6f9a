import Tigerkin.Http.RequestDump

/-! # The head of a request

What the machine of the request parser does on the parts of a request line and on header lines. -/

namespace Tigerkin.Http

open Machine CString

/-- Bytes of a class, and escapes. -/
inductive Encoded (C : ByteClass) : List UInt8 → Prop
  | nil : Encoded C []
  | char {b : UInt8} {l : List UInt8} : C.has b → Encoded C l → Encoded C (b :: l)
  | pct {x y : UInt8} {l : List UInt8} :
    xdigit.has x → xdigit.has y → Encoded C l → Encoded C (37 :: x :: y :: l)

/-- `path_absolute` -/
def IsPath (relaxed : Bool) (path : List UInt8) : Prop :=
  ∃ l, path = 47 :: l ∧ Encoded (pathChar relaxed) l ∧ ∀ b ∈ l.head?, b ≠ 47

/-- A name that the grammar's `token` is meant to be: its `HTTP_CTL` lets most control bytes in. -/
structure IsFieldName (name : List UInt8) : Prop where
  ne_nil : name ≠ []
  token : ∀ b ∈ name, token.has b ∧ 32 < b

structure IsFieldValue (value : List UInt8) : Prop where
  noControl : ∀ b ∈ value, 32 ≤ b ∧ b ≠ 127
  trimmed : ∀ b ∈ value.head?, b ≠ 32

/-! ## The edges of the machine -/

/-- A part of the target. The machine stays in the state `loop`, and in the two states after it
within an escape. -/
structure Part where
  /-- The state before the part, with what it does at the first byte. -/
  start : Nat
  acts : List RequestAction
  loop : Nat
  chars : Bool → ByteClass
  /-- What the part does not start with. -/
  avoid : List UInt8
  /-- The bytes that end the part. -/
  ends : List (UInt8 × List RequestAction × Nat)

/-- A path after its first byte. -/
def pathPart : Part where
  start := 33
  acts := []
  loop := 26
  chars := pathChar
  avoid := bytes "/"
  ends := [(32, [.requestPath, .requestUri], 4), (35, [.requestPath, .requestUri], 20),
    (63, [.requestPath], 29)]

def queryPart : Part where
  start := 29
  acts := [.startQuery]
  loop := 30
  chars := queryChar
  avoid := []
  ends := [(32, [.queryString, .requestUri], 4), (35, [.queryString, .requestUri], 20)]

def fragmentPart : Part where
  start := 20
  acts := [.mark]
  loop := 21
  chars := queryChar
  avoid := []
  ends := [(32, [.fragment], 4)]

def parts : List Part := [pathPart, queryPart, fragmentPart]

/-- An edge by what it does and where it leads. -/
def Goes (relaxed : Bool) (cs : Nat) (b : UInt8) (acts : List RequestAction) (cs' : Nat) : Prop :=
  ∃ e ∈ edge (requestRows relaxed) cs b, e.acts = acts ∧ e.target = cs'

instance (relaxed : Bool) (cs : Nat) (b : UInt8) (acts : List RequestAction) (cs' : Nat) :
    Decidable (Goes relaxed cs b acts cs') :=
  inferInstanceAs (Decidable (∃ e ∈ edge (requestRows relaxed) cs b, _))

/-- The edge of the state `cs` for `b`, if there is one, does one of these and leads there. -/
def Does (r : Bool) (cs : Nat) (b : UInt8) (l : List (List RequestAction × Nat)) : Prop :=
  ∀ e ∈ edge (requestRows r) cs b, (e.acts, e.target) ∈ l

instance (r : Bool) (cs : Nat) (b : UInt8) (l : List (List RequestAction × Nat)) :
    Decidable (Does r cs b l) :=
  inferInstanceAs (Decidable (∀ e ∈ edge (requestRows r) cs b, _))

variable {r : Bool} {P : Part} {b : UInt8} {l name value : List UInt8}

/-- The edges within a part: those for its bytes, and those for the two digits of an escape. -/
theorem part_edges : ∀ b : UInt8, ∀ r, ∀ P ∈ parts,
    ((P.chars r).has b →
      (b ∉ P.avoid → Goes r P.start b P.acts P.loop) ∧ Goes r P.loop b [] P.loop) ∧
    (xdigit.has b →
      Goes r (P.loop + 1) b [] (P.loop + 2) ∧ Goes r (P.loop + 2) b [] P.loop) :=
  forall_byte (by decide +kernel)

theorem partChar_edge (hP : P ∈ parts) (hb : (P.chars r).has b) :
    (b ∉ P.avoid → Goes r P.start b P.acts P.loop) ∧ Goes r P.loop b [] P.loop :=
  (part_edges b r P hP).1 hb

theorem xdigit_edge (hP : P ∈ parts) (hb : xdigit.has b) :
    Goes r (P.loop + 1) b [] (P.loop + 2) ∧ Goes r (P.loop + 2) b [] P.loop :=
  (part_edges b r P hP).2 hb

/-- The edges to an escape, and those out of a part. -/
theorem out_edges : ∀ r, ∀ P ∈ parts,
    (Goes r P.start 37 P.acts (P.loop + 1) ∧ Goes r P.loop 37 [] (P.loop + 1)) ∧
    ∀ d ∈ P.ends, Goes r P.start d.1 (P.acts ++ d.2.1) d.2.2 ∧ Goes r P.loop d.1 d.2.1 d.2.2 := by
  decide +kernel

theorem end_edge (hP : P ∈ parts) {d : UInt8 × List RequestAction × Nat} (hd : d ∈ P.ends) :
    Goes r P.start d.1 (P.acts ++ d.2.1) d.2.2 ∧ Goes r P.loop d.1 d.2.1 d.2.2 :=
  (out_edges r P hP).2 d hd

/-- The edges of a header line: in the name, and in the value. -/
theorem field_edges : ∀ b : UInt8, ∀ r,
    (token.has b ∧ 32 < b → Goes r 13 b [.startField] 14 ∧ Goes r 14 b [] 14) ∧
    (32 ≤ b ∧ b ≠ 127 → (b ≠ 32 → Goes r 15 b [.mark] 16) ∧ Goes r 16 b [] 16) :=
  forall_byte (by decide +kernel)

theorem method_trace : ∀ x ∈ httpMethodMap, x.1 ≠ .MSEARCH → ∀ r,
    trace (requestRows r) (· == .done) 1 0 (bytes x.2 ++ [32]) =
      some ([(0, .mark), ((bytes x.2).length, .requestMethod)], 3) := by
  decide +kernel

/-! ## Traces -/

abbrev requestTrace (r : Bool) := trace (requestRows r) (· == .done)

theorem trace_goes {cs cs₁ cs' p : Nat} {bs : List UInt8} {acts : List RequestAction}
    {as : List (Nat × RequestAction)} (h : Goes r cs b acts cs₁) (hdone : .done ∉ acts)
    (ht : requestTrace r cs₁ (p + 1) bs = some (as, cs')) :
    requestTrace r cs p (b :: bs) = some (acts.map (p, ·) ++ as, cs') := by
  obtain ⟨e, he, rfl, rfl⟩ := h
  refine trace_cons he ?_ ht
  rw [Edge.stops, List.any_eq_false]
  rintro a ha hstop
  exact hdone (beq_iff_eq.mp hstop ▸ ha)

theorem parts_done (hP : P ∈ parts) : .done ∉ P.acts ∧ ∀ d ∈ P.ends, .done ∉ d.2.1 := by
  revert P
  decide

theorem trace_encoded (hP : P ∈ parts) (hl : Encoded (P.chars r) l) (p : Nat) :
    requestTrace r P.loop p l = some ([], P.loop) := by
  have hnil : RequestAction.done ∉ [] := List.not_mem_nil
  induction hl generalizing p with
  | nil => rfl
  | char hb _ ih => exact trace_goes (partChar_edge hP hb).2 hnil (ih (p + 1))
  | pct hx hy _ ih =>
    exact trace_goes (out_edges r P hP).1.2 hnil (trace_goes (xdigit_edge hP hx).1 hnil
      (trace_goes (xdigit_edge hP hy).2 hnil (ih (p + 1 + 1 + 1))))

/-- A part with the byte that ends it. -/
theorem trace_part (hP : P ∈ parts) (hl : Encoded (P.chars r) l)
    (hfirst : ∀ b ∈ l.head?, b ∉ P.avoid) {d : UInt8 × List RequestAction × Nat} (hd : d ∈ P.ends)
    (p : Nat) :
    requestTrace r P.start p (l ++ [d.1]) =
      some (P.acts.map (p, ·) ++ d.2.1.map (p + l.length, ·), d.2.2) := by
  obtain ⟨hacts, hends⟩ := parts_done hP
  have hend : ∀ p, requestTrace r P.loop p [d.1] = some (d.2.1.map (p, ·), d.2.2) := fun p => by
    have h : requestTrace r P.loop p (d.1 :: []) = _ :=
      trace_goes (end_edge hP hd).2 (hends d hd) rfl
    rwa [List.append_nil] at h
  cases hl with
  | nil =>
    have h : requestTrace r P.start p (d.1 :: []) = _ := trace_goes (end_edge hP hd).1 (by
      rw [List.mem_append]
      exact fun h => h.elim hacts (hends d hd)) rfl
    rwa [List.append_nil, List.map_append] at h
  | @char b l hb hl =>
    refine trace_goes ((partChar_edge hP hb).1 (hfirst b rfl)) hacts ?_
    have h := trace_append (trace_encoded hP hl (p + 1)) (hend (p + 1 + l.length))
    rwa [Nat.add_assoc, Nat.add_comm 1] at h
  | @pct x y l hx hy hl =>
    refine trace_goes (out_edges r P hP).1.1 hacts ?_
    have hnil : RequestAction.done ∉ [] := List.not_mem_nil
    have h := trace_goes (xdigit_edge hP hx).1 hnil (trace_goes (p := p + 1 + 1)
      (xdigit_edge hP hy).2 hnil (trace_append (trace_encoded hP hl (p + 1 + 1 + 1))
        (hend (p + 1 + 1 + 1 + l.length))))
    have hp : p + 1 + 1 + 1 + l.length = p + (37 :: x :: y :: l).length := by
      simp only [List.length_cons]
      omega
    rwa [hp] at h

theorem trace_path {path : List UInt8} (hpath : IsPath r path)
    {d : UInt8 × List RequestAction × Nat} (hd : d ∈ pathPart.ends) (p : Nat) :
    requestTrace r 3 p (path ++ [d.1]) =
      some ((p, .mark) :: d.2.1.map (p + path.length, ·), d.2.2) := by
  obtain ⟨l, rfl, hl, hfirst⟩ := hpath
  have hslash : ∀ r, Goes r 3 47 [.mark] 33 := by decide
  have h := trace_part (P := pathPart) (r := r) List.mem_cons_self hl
    (fun b hb => by simpa [pathPart, bytes] using hfirst b hb) hd (p + 1)
  have hp : p + 1 + l.length = p + (47 :: l).length := by
    rw [List.length_cons]
    omega
  rw [hp] at h
  exact trace_goes (hslash r) (by decide) h

/-- What the machine does on the line of a header. -/
def fieldLineActions (p n v : Nat) : List (Nat × RequestAction) :=
  [(p, .startField), (p + n, .writeField), (p + n + 1, .mark), (p + n + 2, .mark),
    (p + n + 2 + v, .writeValue)]

theorem trace_fieldName (hn : IsFieldName name) (p : Nat) :
    requestTrace r 13 p name = some ([(p, .startField)], 14) := by
  obtain ⟨b, name, rfl⟩ := List.exists_cons_of_ne_nil hn.ne_nil
  exact trace_run rfl ((field_edges b r).1 (hn.token b List.mem_cons_self)).1
    (fun c hc => ((field_edges c r).1 (hn.token c (List.mem_cons_of_mem b hc))).2) p

theorem trace_fieldValue (hv : IsFieldValue value) (p : Nat) :
    requestTrace r 15 p (value ++ bytes "\r\n") =
      some ([(p, .mark), (p + value.length, .writeValue)], 13) := by
  cases value with
  | nil =>
    rw [requestTrace, trace_shift]
    cases r <;> rfl
  | cons b value =>
    have hrun : requestTrace r 15 p (b :: value) = some ([(p, .mark)], 16) :=
      trace_run rfl
        (((field_edges b r).2 (hv.noControl b List.mem_cons_self)).1 (hv.trimmed b rfl))
        (fun c hc => ((field_edges c r).2 (hv.noControl c (List.mem_cons_of_mem b hc))).2) p
    have hend : requestTrace r 16 (p + (b :: value).length) (bytes "\r\n") =
        some ([(p + (b :: value).length, .writeValue)], 13) := by
      rw [requestTrace, trace_shift]
      cases r <;> rfl
    exact trace_append hrun hend

theorem trace_fieldLine (hn : IsFieldName name) (hv : IsFieldValue value) (p : Nat) :
    requestTrace r 13 p (name ++ bytes ": " ++ (value ++ bytes "\r\n")) =
      some (fieldLineActions p name.length value.length, 13) := by
  have hcolon : requestTrace r 14 (p + name.length) (bytes ": ") =
      some ([(p + name.length, .writeField), (p + name.length + 1, .mark)], 15) := by
    rw [requestTrace, trace_shift]
    cases r <;> rfl
  have hname := trace_append (trace_fieldName hn p) hcolon
  have hlen : p + (name ++ bytes ": ").length = p + name.length + 2 := by
    rw [List.length_append, ← Nat.add_assoc]
    rfl
  have hvalue := trace_fieldValue (r := r) hv (p + (name ++ bytes ": ").length)
  have h := trace_append hname hvalue
  rw [hlen] at h
  exact h

theorem trace_versionText {v : UInt8} (hv : v = 0x10 ∨ v = 0x11) (p : Nat) :
    requestTrace r 4 p (versionText v ++ bytes "\r\n") =
      some ([(p, .mark), (p + 8, .httpVersion)], 13) := by
  rw [requestTrace, trace_shift]
  rcases hv with rfl | rfl <;> cases r <;> rfl

end Tigerkin.Http
