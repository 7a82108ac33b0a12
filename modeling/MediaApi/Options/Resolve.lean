import MediaApi.Options.Rendering

/-! # The same request by HTTP and by gRPC

A client that wants the rate `r`, the bit depth `b` and the channel count `c` can say so in a query
or in an options message. The query is checked against the ranges but for a rate of zero; the
message takes zero for unset and narrows the other two numbers to eight bits without a check. The
two ways resolve alike exactly when the numbers are in the ranges of both, or a default hides the
difference (`resolves_alike_iff`). -/

namespace MediaApi.Options.Resolve

open MediaApi.Lib.LastWins MediaApi.Model.Audio MediaApi.Model.Options MediaApi.Options.Query
open MediaApi.Options.Rendering

variable (defaults : DecodeOptions) (r b c : UInt32)

/-- The query `sample_rate=r&bits=b&channels=c`. -/
def httpQuery : String :=
  "sample_rate=" ++ r.toNat.repr ++ "&" ++ ("bits=" ++ b.toNat.repr) ++ "&" ++
    ("channels=" ++ c.toNat.repr)

/-- The number requested for a field. -/
def requested : Field → ℕ
  | .sampleRate => r.toNat
  | .bits => b.toNat
  | .channels => c.toNat

/-- The numbers a client may request: the ranges of the query, and no rate of zero. -/
def Supported (f : Field) (n : ℕ) : Prop := InRange f n ∧ n ≠ 0

/-- The request resolves to the options: a supported number stands, any other falls back to the
default. -/
def Resolves (o : DecodeOptions) : Prop :=
  ∀ f, (Supported f (requested r b c f) → get f o = some (requested r b c f)) ∧
    (¬ Supported f (requested r b c f) → get f o = get f defaults)

/-- HTTP and gRPC pass the same options to `acquire`, and both resolve the request. -/
def ResolvesAlike : Prop :=
  jobOptions defaults (.grpc (some ⟨r, b, c⟩)) =
      jobOptions defaults (.http (some (httpQuery r b c))) ∧
    Resolves defaults r b c (jobOptions defaults (.grpc (some ⟨r, b, c⟩))) ∧
    Resolves defaults r b c (jobOptions defaults (.http (some (httpQuery r b c))))

/-- The field's name in the query. -/
def nameOf : Field → String
  | .sampleRate => "sample_rate"
  | .bits => "bits"
  | .channels => "channels"

/-- What a pair `name=number` sets. -/
theorem get_parse_pair (f g : Field) (n : ℕ) (q : String)
    (hq : q.toList = (nameOf g).toList ++ '=' :: n.repr.toList) :
    get f (parseDecodeOptions (some q)) =
      if f = g then if InRange g n then some n else none else none := by
  have hsay : Says g n q.toList := by
    refine ⟨nameOf g, n.repr.toList, hq, ?_, numeral_repr n⟩
    cases g <;> decide
  rw [get_parse, List.splitOn_eq_singleton (not_mem_of_say hsay), last_singleton,
    setting_of_say hsay, ite_and]

/-- What the query sets: the numbers in range. -/
theorem get_parse_httpQuery (f : Field) :
    get f (parseDecodeOptions (some (httpQuery r b c))) =
      if InRange f (requested r b c f) then some (requested r b c f) else none := by
  have hrate := get_parse_pair f .sampleRate r.toNat ("sample_rate=" ++ r.toNat.repr)
    (by rw [String.toList_append]; rfl)
  have hbits := get_parse_pair f .bits b.toNat ("bits=" ++ b.toNat.repr)
    (by rw [String.toList_append]; rfl)
  have hchannels := get_parse_pair f .channels c.toNat ("channels=" ++ c.toNat.repr)
    (by rw [String.toList_append]; rfl)
  have hquery : httpQuery r b c = "sample_rate=" ++ r.toNat.repr ++ "&" ++
      ("bits=" ++ b.toNat.repr) ++ "&" ++ ("channels=" ++ c.toNat.repr) := rfl
  rw [hquery, get_parse_append, get_parse_append, hrate, hbits, hchannels]
  cases f
  · exact Option.none_or
  · exact congrArg (Option.or · none) rfl |>.trans Option.or_none
  · exact Option.or_none

theorem get_merge (f : Field) (o : DecodeOptions) :
    get f (mergeOptions defaults o) = (get f o).or (get f defaults) := by
  cases f <;> simp only [Query.get, mergeOptions, Option.map_or]

/-- The options of the HTTP path. -/
theorem get_http (f : Field) :
    get f (jobOptions defaults (.http (some (httpQuery r b c)))) =
      if InRange f (requested r b c f) then some (requested r b c f) else get f defaults := by
  rw [jobOptions, get_merge, get_parse_httpQuery]
  split_ifs <;> rfl

/-- The number as the message's field is narrowed. -/
def narrowed : Field → ℕ → ℕ
  | .sampleRate, n => n
  | .bits, n | .channels, n => n % 2 ^ 8

/-- The options of the gRPC path. -/
theorem get_grpc (f : Field) :
    get f (jobOptions defaults (.grpc (some ⟨r, b, c⟩))) =
      if requested r b c f = 0 then get f defaults
      else some (narrowed f (requested r b c f)) := by
  have hzero : ∀ x : UInt32, x > 0 ↔ ¬ x.toNat = 0 := fun x => by
    rw [gt_iff_lt, UInt32.lt_iff_toNat_lt]
    exact Nat.pos_iff_ne_zero
  by_cases hz : requested r b c f = 0
  · rw [if_pos hz]
    cases f <;> exact congrArg (Option.map _) (if_neg fun h => (hzero _).mp h hz)
  · rw [if_neg hz]
    cases f
    · exact congrArg (Option.map _) (if_pos ((hzero r).mpr hz))
    · refine (congrArg (Option.map _) (if_pos ((hzero b).mpr hz))).trans ?_
      simp [narrowed, requested]
    · refine (congrArg (Option.map _) (if_pos ((hzero c).mpr hz))).trans ?_
      simp [narrowed, requested]

/-- A supported number survives the narrowing. -/
theorem Supported.narrowed_eq {f : Field} {n : ℕ} (h : Supported f n) : narrowed f n = n := by
  obtain ⟨hrange, -⟩ := h
  cases f <;> simp only [InRange, narrowed] at hrange ⊢ <;> omega

/-- The query's ranges exclude zero, but for the rate. -/
theorem supported_of_inRange {f : Field} {n : ℕ} (hf : f ≠ .sampleRate) (h : InRange f n) :
    Supported f n := by
  refine ⟨h, ?_⟩
  cases f
  · exact absurd rfl hf
  · simp only [InRange] at h
    omega
  · simp only [InRange] at h
    omega

/-- The field's default hides what each path makes of an unsupported number. -/
def Hides (f : Field) (n : ℕ) : Prop :=
  ¬ Supported f n → (InRange f n → get f defaults = some n) ∧
    (n ≠ 0 → get f defaults = some (narrowed f n))

/-- The paths resolve alike if every default hides the difference. -/
theorem resolvesAlike_iff_forall : ResolvesAlike defaults r b c ↔
    ∀ f, Hides defaults f (requested r b c f) := by
  constructor
  · rintro ⟨-, hgrpc, hhttp⟩ f hf
    refine ⟨fun hrange => ?_, fun hne => ?_⟩
    · rw [← (hhttp f).2 hf, get_http, if_pos hrange]
    · rw [← (hgrpc f).2 hf, get_grpc, if_neg hne]
  · intro h
    have hgrpc : Resolves defaults r b c (jobOptions defaults (.grpc (some ⟨r, b, c⟩))) := by
      refine fun f => ⟨fun hf => ?_, fun hf => ?_⟩
      · rw [get_grpc, if_neg hf.2, hf.narrowed_eq]
      · rw [get_grpc]
        split_ifs with hz
        · rfl
        · exact ((h f hf).2 hz).symm
    have hhttp : Resolves defaults r b c
        (jobOptions defaults (.http (some (httpQuery r b c)))) := by
      refine fun f => ⟨fun hf => ?_, fun hf => ?_⟩
      · rw [get_http, if_pos hf.1]
      · rw [get_http]
        split_ifs with hrange
        · exact ((h f hf).1 hrange).symm
        · rfl
    refine ⟨ext_get fun f => ?_, hgrpc, hhttp⟩
    by_cases hf : Supported f (requested r b c f)
    · rw [(hgrpc f).1 hf, (hhttp f).1 hf]
    · rw [(hgrpc f).2 hf, (hhttp f).2 hf]

section fields

variable {defaults} {x : UInt32}

theorem get_sampleRate_eq_iff {y : UInt32} :
    get .sampleRate defaults = some y.toNat ↔ defaults.outputSampleRate = some y :=
  (Option.map_injective fun _ _ => UInt32.toNat_inj.mp).eq_iff' rfl

theorem get_bits_eq_iff : get .bits defaults = some (narrowed .bits x.toNat) ↔
    defaults.outputBitsPerSample = some x.toUInt8 :=
  (Option.map_injective fun _ _ => UInt8.toNat_inj.mp).eq_iff' (by simp [narrowed])

theorem get_channels_eq_iff : get .channels defaults = some (narrowed .channels x.toNat) ↔
    defaults.outputChannels = some x.toUInt8 :=
  (Option.map_injective fun _ _ => UInt8.toNat_inj.mp).eq_iff' (by simp [narrowed])

theorem supported_sampleRate_iff : Supported .sampleRate x.toNat ↔ x ≠ 0 :=
  ⟨fun h hx => h.2 (by rw [hx]; rfl), fun h => ⟨x.toNat_lt, fun hx => h (UInt32.toNat_inj.mp hx)⟩⟩

theorem supported_bits_iff : Supported .bits x.toNat ↔ x = 16 ∨ x = 24 ∨ x = 32 := by
  simp only [Supported, InRange, ← UInt32.toNat_inj, UInt32.reduceToNat]
  omega

theorem supported_channels_iff : Supported .channels x.toNat ↔ x ≠ 0 ∧ x ≤ 16 := by
  simp only [Supported, InRange, ne_eq, ← UInt32.toNat_inj, UInt32.le_iff_toNat_le,
    UInt32.reduceToNat]
  omega

/-- Of the rates only zero is unsupported, and only the query takes it. -/
theorem hides_sampleRate_iff :
    Hides defaults .sampleRate x.toNat ↔ (x = 0 → defaults.outputSampleRate = some 0) := by
  rw [Hides, supported_sampleRate_iff, not_ne_iff, get_sampleRate_eq_iff]
  constructor
  · exact fun h hx => hx ▸ (h hx).1 x.toNat_lt
  · rintro h rfl
    exact ⟨fun _ => h rfl, fun hne => absurd rfl hne⟩

/-- An unsupported bit depth other than zero is narrowed by the message. -/
theorem hides_bits_iff : Hides defaults .bits x.toNat ↔
    x = 0 ∨ x = 16 ∨ x = 24 ∨ x = 32 ∨ defaults.outputBitsPerSample = some x.toUInt8 := by
  have hsupported (hrange : InRange .bits x.toNat) : x = 16 ∨ x = 24 ∨ x = 32 :=
    supported_bits_iff.mp (supported_of_inRange (by decide) hrange)
  rw [Hides, supported_bits_iff, get_bits_eq_iff]
  constructor
  · intro h
    by_contra hc
    push Not at hc
    obtain ⟨h0, h16, h24, h32, hdef⟩ := hc
    exact hdef ((h (by simp [h16, h24, h32])).2 fun hx => h0 (UInt32.toNat_inj.mp hx))
  · intro h hx
    refine ⟨fun hrange => absurd (hsupported hrange) hx, fun hne => ?_⟩
    rcases h with rfl | h16 | h24 | h32 | hdef
    · exact absurd rfl hne
    · exact absurd (Or.inl h16) hx
    · exact absurd (Or.inr (Or.inl h24)) hx
    · exact absurd (Or.inr (Or.inr h32)) hx
    · exact hdef

/-- More than sixteen channels are narrowed by the message. -/
theorem hides_channels_iff : Hides defaults .channels x.toNat ↔
    x ≤ 16 ∨ defaults.outputChannels = some x.toUInt8 := by
  have hsupported (hrange : InRange .channels x.toNat) : x ≠ 0 ∧ x ≤ 16 :=
    supported_channels_iff.mp (supported_of_inRange (by decide) hrange)
  rw [Hides, supported_channels_iff, get_channels_eq_iff]
  constructor
  · intro h
    by_contra hc
    rw [not_or, UInt32.not_le] at hc
    obtain ⟨h16, hdef⟩ := hc
    refine hdef ((h fun hx => absurd hx.2 (UInt32.not_le.mpr h16)).2 fun hx => ?_)
    rw [UInt32.lt_iff_toNat_lt, hx] at h16
    exact absurd h16 (Nat.not_lt_zero _)
  · intro h hx
    refine ⟨fun hrange => absurd (hsupported hrange) hx, fun hne => ?_⟩
    rcases h with h16 | hdef
    · exact absurd ⟨fun h0 => hne (by rw [h0]; rfl), h16⟩ hx
    · exact hdef

end fields

/-- **HTTP and gRPC resolve a request alike** exactly if the rate is not zero, the bit depth is one
of the supported ones or zero and there are at most sixteen channels, but for the numbers that the
default has as well. -/
theorem resolves_alike_iff : ResolvesAlike defaults r b c ↔
    (r = 0 → defaults.outputSampleRate = some 0) ∧
    (b = 0 ∨ b = 16 ∨ b = 24 ∨ b = 32 ∨ defaults.outputBitsPerSample = some b.toUInt8) ∧
    (c ≤ 16 ∨ defaults.outputChannels = some c.toUInt8) := by
  rw [resolvesAlike_iff_forall, ← hides_sampleRate_iff, ← hides_bits_iff, ← hides_channels_iff]
  constructor
  · exact fun h => ⟨h .sampleRate, h .bits, h .channels⟩
  · rintro ⟨hrate, hbits, hchannels⟩ f
    cases f with
    | sampleRate => exact hrate
    | bits => exact hbits
    | channels => exact hchannels

/-- A bit depth of 272 is narrowed to 16 by the one path and refused by the other. -/
theorem not_resolves_alike : ¬ ResolvesAlike { outputBitsPerSample := some 24 } 44100 272 2 := by
  rintro ⟨heq, -, -⟩
  have hbits := congrArg (get .bits) heq
  rw [get_http, get_grpc] at hbits
  exact absurd hbits (by decide)

end MediaApi.Options.Resolve
