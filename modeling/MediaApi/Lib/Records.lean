import Mathlib.Data.List.Basic
import Mathlib.Tactic

/-! # Streams of length-prefixed records

A record is the length of its payload, coded in a fixed width, and the payload. Every string is a
stream of records and a rest that does not begin with a record, in one way only (`exists_stream`,
`stream_inj`). The coding of the lengths is a parameter. -/

namespace MediaApi.Lib.Records

/-- A coding of the numbers below `bound` in `width` symbols. -/
structure Coding (α : Type*) where
  width : ℕ
  bound : ℕ
  enc : ℕ → List α
  dec : List α → ℕ
  width_pos : 0 < width
  length_enc : ∀ n, (enc n).length = width
  dec_enc : ∀ n, n < bound → dec (enc n) = n
  enc_dec : ∀ l, l.length = width → enc (dec l) = l
  dec_lt : ∀ l, l.length = width → dec l < bound

variable {α : Type*} (C : Coding α)

/-- The record of a payload. -/
def record (p : List α) : List α := C.enc p.length ++ p

/-- The records of some payloads, one after another. -/
def stream (ps : List (List α)) : List α := ps.flatMap (record C)

/-- The lengths of the payloads can be coded. -/
def Bounded (ps : List (List α)) : Prop := ∀ p ∈ ps, p.length < C.bound

/-- The string does not begin with a record: it ends in the length or in the payload. -/
def Incomplete (l : List α) : Prop :=
  l.length < C.width ∨ l.length < C.width + C.dec (l.take C.width)

variable {C} {l rest rest' : List α} {p p' : List α} {ps ps' : List (List α)}

@[simp] theorem stream_nil : stream C [] = [] := rfl

theorem stream_cons : stream C (p :: ps) = record C p ++ stream C ps := rfl

theorem stream_concat : stream C (ps ++ [p]) = stream C ps ++ record C p := by simp [stream]

theorem stream_append : stream C (ps ++ ps') = stream C ps ++ stream C ps' := List.flatMap_append

theorem length_record : (record C p).length = C.width + p.length := by
  rw [record, List.length_append, C.length_enc]

theorem bounded_nil : Bounded C ([] : List (List α)) := fun _ h => absurd h List.not_mem_nil

theorem bounded_cons : Bounded C (p :: ps) ↔ p.length < C.bound ∧ Bounded C ps :=
  List.forall_mem_cons

theorem bounded_append : Bounded C (ps ++ ps') ↔ Bounded C ps ∧ Bounded C ps' :=
  List.forall_mem_append

theorem incomplete_nil : Incomplete C ([] : List α) := Or.inl C.width_pos

/-- The length that a record begins with. -/
theorem take_record : (record C p ++ rest).take C.width = C.enc p.length := by
  rw [record, List.append_assoc, List.take_append_of_le_length (C.length_enc _).ge,
    List.take_of_length_le (C.length_enc _).le]

theorem not_incomplete_record (h : p.length < C.bound) : ¬ Incomplete C (record C p ++ rest) := by
  rw [Incomplete, take_record, C.dec_enc _ h, List.length_append, length_record]
  omega

/-- A string that begins with a record. -/
theorem exists_record (h : ¬ Incomplete C l) :
    ∃ p rest, l = record C p ++ rest ∧ p.length < C.bound := by
  rw [Incomplete, not_or, not_lt, not_lt] at h
  obtain ⟨hwidth, hlen⟩ := h
  have htake : (l.take C.width).length = C.width := by
    rw [List.length_take]
    omega
  refine ⟨(l.drop C.width).take (C.dec (l.take C.width)),
    (l.drop C.width).drop (C.dec (l.take C.width)), ?_, ?_⟩
  · have hp : ((l.drop C.width).take (C.dec (l.take C.width))).length = C.dec (l.take C.width) := by
      rw [List.length_take, List.length_drop]
      omega
    rw [record, hp, C.enc_dec _ htake, List.append_assoc, List.take_append_drop,
      List.take_append_drop]
  · rw [List.length_take]
    exact (min_le_left _ _).trans_lt (C.dec_lt _ htake)

/-- **Every string is a stream and a rest.** -/
theorem exists_stream (C : Coding α) (l : List α) :
    ∃ ps rest, l = stream C ps ++ rest ∧ Bounded C ps ∧ Incomplete C rest := by
  induction hn : l.length using Nat.strong_induction_on generalizing l with
  | _ n ih =>
    by_cases h : Incomplete C l
    · exact ⟨[], l, rfl, bounded_nil, h⟩
    · obtain ⟨p, l', rfl, hp⟩ := exists_record h
      have hlt : l'.length < n := by
        rw [← hn, List.length_append, length_record]
        have := C.width_pos
        omega
      obtain ⟨ps, rest, rfl, hps, hrest⟩ := ih _ hlt l' rfl
      exact ⟨p :: ps, rest, by rw [stream_cons, List.append_assoc], bounded_cons.mpr ⟨hp, hps⟩,
        hrest⟩

theorem record_inj (hp : p.length < C.bound) (hp' : p'.length < C.bound)
    (h : record C p ++ rest = record C p' ++ rest') : p = p' ∧ rest = rest' := by
  have hlen : p.length = p'.length := by
    have htake := congrArg (List.take C.width) h
    rw [take_record, take_record] at htake
    rw [← C.dec_enc _ hp, ← C.dec_enc _ hp', htake]
  have hrecord : (record C p).length = (record C p').length := by
    rw [length_record, length_record, hlen]
  obtain ⟨h1, h2⟩ := List.append_inj h hrecord
  exact ⟨(List.append_inj h1 (by rw [C.length_enc, C.length_enc])).2, h2⟩

/-- **In one way only.** -/
theorem stream_inj (hps : Bounded C ps) (hps' : Bounded C ps') (hrest : Incomplete C rest)
    (hrest' : Incomplete C rest') (h : stream C ps ++ rest = stream C ps' ++ rest') :
    ps = ps' ∧ rest = rest' := by
  induction ps generalizing ps' with
  | nil =>
    cases ps' with
    | nil => exact ⟨rfl, h⟩
    | cons p' ps' =>
      rw [stream_nil, List.nil_append, stream_cons, List.append_assoc] at h
      rw [h] at hrest
      exact absurd hrest (not_incomplete_record (bounded_cons.mp hps').1)
  | cons p ps ih =>
    rw [stream_cons, List.append_assoc] at h
    cases ps' with
    | nil =>
      rw [stream_nil, List.nil_append] at h
      rw [← h] at hrest'
      exact absurd hrest' (not_incomplete_record (bounded_cons.mp hps).1)
    | cons p' ps' =>
      rw [stream_cons, List.append_assoc] at h
      obtain ⟨rfl, htail⟩ := record_inj (bounded_cons.mp hps).1 (bounded_cons.mp hps').1 h
      obtain ⟨rfl, heq⟩ := ih (bounded_cons.mp hps).2 (bounded_cons.mp hps').2 htail
      exact ⟨rfl, heq⟩

/-- A stream in a stream ends at a boundary of it. -/
theorem isPrefix_of_stream (hps : Bounded C ps) (hps' : Bounded C ps')
    (h : stream C ps <+: stream C ps') : ps <+: ps' := by
  obtain ⟨l, hl⟩ := h
  obtain ⟨qs, rest, rfl, hqs, hrest⟩ := exists_stream C l
  rw [← List.append_assoc, ← stream_append, ← List.append_nil (stream C ps')] at hl
  obtain ⟨heq, -⟩ := stream_inj (bounded_append.mpr ⟨hps, hqs⟩) hps' hrest incomplete_nil hl
  exact ⟨qs, heq⟩

end MediaApi.Lib.Records
