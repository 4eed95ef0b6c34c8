import SystemsLab.CLib.CString

/-!
# Reading formatted text

A format is a list of directives, the input a list of bytes.  `scanf` gives the strings that were
assigned and the input that is left; their number is what the C function returns, apart from `EOF`.
A conversion without a width that is longer than its buffer makes it fail.

* `%s` is `.word none n` and `%63s` is `.word (some 63) n` for a buffer `char[n]`;
* `%[^x]` is `.run accept none n`, where `accept` says which bytes are in the set.
-/

namespace SystemsLab.Scanf

open List

/-- `isspace` in the C locale. -/
def isSpace (c : UInt8) : Bool := c = 32 || 9 ≤ c && c ≤ 13

inductive Directive where
  | white
  | char (c : UInt8)
  | word (width : Option Nat) (size : Nat)
  | run (accept : UInt8 → Bool) (width : Option Nat) (size : Nat)

structure Scanned where
  args : List CString
  rest : List UInt8

/-- The bytes that a conversion takes from the input. -/
def field (accept : UInt8 → Bool) (width : Option Nat) (input : List UInt8) : List UInt8 :=
  match width with
  | none => input.takeWhile accept
  | some w => (input.takeWhile accept).take w

/-- A conversion assigns its bytes to a buffer and goes on, unless there are none. -/
def assign (bytes : List UInt8) (size : Nat) (input : List UInt8)
    (next : List UInt8 → Option Scanned) : Option Scanned :=
  if bytes = [] then some ⟨[], input⟩
  else if size ≤ bytes.length then none
  else (next (input.drop bytes.length)).map fun r => ⟨.ofBytes bytes :: r.args, r.rest⟩

/-- `scanf` stops at the first directive that does not match. -/
def scanf : List Directive → List UInt8 → Option Scanned
  | [], input => some ⟨[], input⟩
  | .white :: format, input => scanf format (input.dropWhile isSpace)
  | .char _ :: _, [] => some ⟨[], []⟩
  | .char c :: format, d :: input => if d = c then scanf format input else some ⟨[], d :: input⟩
  | .word width size :: format, input =>
    let input := input.dropWhile isSpace
    assign (field (fun c => !isSpace c) width input) size input (scanf format)
  | .run accept width size :: format, input =>
    assign (field accept width input) size input (scanf format)

/-! ## What the directives read -/

variable {format : List Directive} {input rest : List UInt8} {s : CString} {size : Nat}
  {width : Option Nat} {accept : UInt8 → Bool} {c : UInt8}

/-- The first byte of the input, if there is one, is not accepted. -/
def Stops (accept : UInt8 → Bool) (input : List UInt8) : Prop :=
  ∀ c ∈ input.head?, accept c = false

theorem stops_cons (h : accept c = false) : Stops accept (c :: rest) := by
  intro d hd
  rw [head?_cons, Option.mem_def, Option.some.injEq] at hd
  rw [← hd, h]

theorem stops_space (h : isSpace c) : Stops (fun c => !isSpace c) ([c] ++ rest) :=
  stops_cons (by simp [h])

theorem stops_nil : Stops accept [] := by
  nofun

/-- A string that `%s` reads whole. -/
def isWord (s : CString) : Bool := s.bytes ≠ [] && s.bytes.all fun c => !isSpace c

theorem isWord_iff : isWord s ↔ s.bytes ≠ [] ∧ ∀ c ∈ s.bytes, isSpace c = false := by
  simp [isWord]

theorem stops_word (hs : isWord s) : Stops isSpace (s.bytes ++ rest) := by
  rcases isWord_iff.1 hs with ⟨hne, hspace⟩
  cases hbytes : s.bytes with
  | nil => exact absurd hbytes hne
  | cons c bytes => exact stops_cons (hspace c (hbytes ▸ mem_cons_self))

theorem field_append (hs : ∀ c ∈ s.bytes, accept c) (hwidth : ∀ w ∈ width, s.bytes.length ≤ w)
    (hstop : Stops accept rest) : field accept width (s.bytes ++ rest) = s.bytes := by
  have hrest : rest.takeWhile accept = [] := by
    cases rest with
    | nil => rfl
    | cons c rest =>
      simpa using hstop c rfl
  have htake : (s.bytes ++ rest).takeWhile accept = s.bytes := by
    rw [takeWhile_append_of_pos hs, hrest, append_nil]
  cases width with
  | none => rw [field, htake]
  | some w => rw [field, htake, take_of_length_le (hwidth w rfl)]

theorem scanf_char (c : UInt8) : scanf (.char c :: format) (c :: input) = scanf format input := by
  rw [scanf, if_pos rfl]

theorem dropWhile_of_stops (h : Stops accept rest) : rest.dropWhile accept = rest := by
  cases rest with
  | nil => rfl
  | cons c rest =>
    simpa using h c rfl

theorem scanf_white (hc : isSpace c) (hstop : Stops isSpace rest) :
    scanf (.white :: format) ([c] ++ rest) = scanf format rest := by
  rw [scanf, singleton_append, dropWhile_cons_of_pos hc, dropWhile_of_stops hstop]

theorem assign_append {next : List UInt8 → Option Scanned} (hne : s.bytes ≠ [])
    (hsize : s.bytes.length < size) :
    assign s.bytes size (s.bytes ++ rest) next = (next rest).map fun r =>
      ⟨s :: r.args, r.rest⟩ := by
  rw [assign, if_neg hne, if_neg (Nat.not_le_of_lt hsize), drop_left, CString.ofBytes_bytes]

theorem scanf_run (hne : s.bytes ≠ []) (hs : ∀ c ∈ s.bytes, accept c)
    (hwidth : ∀ w ∈ width, s.bytes.length ≤ w) (hsize : s.bytes.length < size)
    (hstop : Stops accept rest) :
    scanf (.run accept width size :: format) (s.bytes ++ rest) =
      (scanf format rest).map fun r => ⟨s :: r.args, r.rest⟩ := by
  rw [scanf, field_append hs hwidth hstop, assign_append hne hsize]

theorem scanf_word (hs : isWord s) (hwidth : ∀ w ∈ width, s.bytes.length ≤ w)
    (hsize : s.bytes.length < size) (hstop : Stops (fun c => !isSpace c) rest) :
    scanf (.word width size :: format) (s.bytes ++ rest) = (scanf format rest).map fun r =>
      ⟨s :: r.args, r.rest⟩ := by
  rcases isWord_iff.1 hs with ⟨hne, hspace⟩
  have hwords : ∀ c ∈ s.bytes, (!isSpace c) = true := by
    intro c hc
    rw [hspace c hc]
    rfl
  rw [scanf, dropWhile_of_stops (stops_word hs), field_append hwords hwidth hstop,
    assign_append hne hsize]

/-! ## Conversions with a width -/

/-- The size of the buffer that a directive fills. -/
def Directive.size? : Directive → Option Nat
  | .word _ size => some size
  | .run _ _ size => some size
  | _ => none

/-- The width keeps a conversion inside its buffer. -/
def Directive.limited : Directive → Bool
  | .word width size => width.any (· < size)
  | .run _ width size => width.any (· < size)
  | _ => true

theorem field_subset : field accept width input ⊆ input := by
  have htake : input.takeWhile accept ⊆ input := (List.takeWhile_prefix _).subset
  cases width with
  | none => exact htake
  | some w => exact Subset.trans (take_subset w _) htake

theorem length_field_lt (h : width.any (· < size)) : (field accept width input).length < size := by
  cases width with
  | none => cases h
  | some w => exact (length_take_le w _).trans_lt (of_decide_eq_true h)

/-- The assigned strings fit their buffers, and their bytes come from the input. -/
def Assigned (format : List Directive) (input : List UInt8) (args : List CString) : Prop :=
  List.Forall₂ (fun s size => s.bytes.length < size ∧ s.bytes ⊆ input) args
    ((format.filterMap Directive.size?).take args.length)

theorem Assigned.nil : Assigned format input [] := Forall₂.nil

theorem Assigned.mono {args : List CString} (h : Assigned format rest args) (hrest : rest ⊆ input) :
    Assigned format input args :=
  Forall₂.imp (fun _ _ hs => ⟨hs.1, Subset.trans hs.2 hrest⟩) h

theorem assign_limited {d : Directive} {bytes : List UInt8} {next : List UInt8 → Option Scanned}
    (hd : d.size? = some size) (hsize : bytes.length < size) (hbytes : bytes ⊆ input)
    (hnext : ∀ input, ∃ r, next input = some r ∧ Assigned format input r.args) :
    ∃ r, assign bytes size input next = some r ∧ Assigned (d :: format) input r.args := by
  by_cases hnil : bytes = []
  · exact ⟨⟨[], input⟩, if_pos hnil, Assigned.nil⟩
  · rcases hnext (input.drop bytes.length) with ⟨r, hr, hargs⟩
    refine ⟨⟨.ofBytes bytes :: r.args, r.rest⟩, ?_, ?_⟩
    · rw [assign, if_neg hnil, if_neg (Nat.not_le_of_lt hsize), hr]
      rfl
    · have hpre : (CString.ofBytes bytes).bytes <+: bytes := takeWhile_prefix _
      rw [Assigned, filterMap_cons, hd, length_cons]
      refine Forall₂.cons ⟨hpre.length_le.trans_lt hsize, Subset.trans hpre.subset hbytes⟩ ?_
      exact hargs.mono (drop_subset _ _)

/-- With a width for every conversion nothing overflows. -/
theorem scanf_limited (hformat : ∀ d ∈ format, d.limited) (input : List UInt8) :
    ∃ r, scanf format input = some r ∧ Assigned format input r.args := by
  induction format generalizing input with
  | nil => exact ⟨⟨[], input⟩, rfl, Assigned.nil⟩
  | cons d format ih =>
    have hd := hformat d mem_cons_self
    have hnext := ih fun d hd => hformat d (mem_cons_of_mem _ hd)
    have hdrop : input.dropWhile isSpace ⊆ input := (dropWhile_suffix _).subset
    cases d with
    | white =>
      rcases hnext (input.dropWhile isSpace) with ⟨r, hr, hargs⟩
      exact ⟨r, hr, hargs.mono hdrop⟩
    | char c =>
      cases input with
      | nil => exact ⟨⟨[], []⟩, rfl, Assigned.nil⟩
      | cons e input =>
        by_cases he : e = c
        · rcases hnext input with ⟨r, hr, hargs⟩
          exact ⟨r, by rw [scanf, if_pos he, hr], hargs.mono (subset_cons_self _ _)⟩
        · exact ⟨⟨[], e :: input⟩, by rw [scanf, if_neg he], Assigned.nil⟩
    | word width size =>
      rcases assign_limited (d := .word width size) rfl (length_field_lt hd) field_subset hnext
        with ⟨r, hr, hargs⟩
      exact ⟨r, hr, hargs.mono hdrop⟩
    | run accept width size => exact assign_limited rfl (length_field_lt hd) field_subset hnext

end SystemsLab.Scanf
