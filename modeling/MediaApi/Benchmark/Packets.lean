import MediaApi.Lib.Records
import MediaApi.Model.OpusBenchmark

/-! # The packet stream of the benchmark

The stream of the encoders is a stream of records with their lengths in four bytes, and the decoding
loop reads a string record by record up to its rest. A rest of at least four bytes is a record cut
in its payload and reported; a rest of one to three bytes is a record cut in its length, and the
loop ends as if it were not there (`decodeLoop_eq`). -/

namespace MediaApi.Benchmark.Packets

open MediaApi.Lib.Records MediaApi.Model.Audio MediaApi.Model.OpusBenchmark

/-! ### The lengths -/

theorem lenOf_toLeBytes (n : UInt32) : lenOf (toLeBytes n) = some n.toNat := by
  have hn := n.toNat_lt
  simp only [toLeBytes, lenOf, fromLeBytes, Option.some_inj, UInt8.toNat_ofNat',
    UInt32.toNat_ofNat']
  omega

theorem toLeBytes_fromLeBytes (b₀ b₁ b₂ b₃ : UInt8) :
    toLeBytes (fromLeBytes b₀ b₁ b₂ b₃) = [b₀, b₁, b₂, b₃] := by
  have h₀ := b₀.toNat_lt
  have h₁ := b₁.toNat_lt
  have h₂ := b₂.toNat_lt
  have h₃ := b₃.toNat_lt
  simp only [toLeBytes, fromLeBytes, List.cons.injEq, and_true, ← UInt8.toNat_inj,
    UInt8.toNat_ofNat', UInt32.toNat_ofNat']
  omega

/-- The coding of the lengths: four bytes, the lowest first. -/
def lengths : Coding UInt8 where
  width := 4
  bound := 2 ^ 32
  enc n := toLeBytes (.ofNat n)
  dec l := (lenOf l).getD 0
  width_pos := by decide
  length_enc _ := rfl
  dec_enc n hn := by
    rw [lenOf_toLeBytes, Option.getD_some, UInt32.toNat_ofNat']
    exact Nat.mod_eq_of_lt hn
  enc_dec l hl := by
    obtain ⟨b₀, b₁, b₂, b₃, rfl⟩ := List.length_eq_four.mp hl
    simp only [lenOf, Option.getD_some, UInt32.ofNat_toNat, toLeBytes_fromLeBytes]
  dec_lt l hl := by
    obtain ⟨b₀, b₁, b₂, b₃, rfl⟩ := List.length_eq_four.mp hl
    exact (fromLeBytes b₀ b₁ b₂ b₃).toNat_lt

theorem lenOf_eq {l : Bytes} (h : l.length = 4) : lenOf l = some (lengths.dec l) := by
  obtain ⟨b₀, b₁, b₂, b₃, rfl⟩ := List.length_eq_four.mp h
  rfl

/-! ### The loop -/

/-- Reading on from a position of a string. -/
theorem slice_eq {α : Type} {xs a b : List α} {i : ℕ} (hi : i ≤ xs.length)
    (h : xs.drop i = a ++ b) :
    i + a.length ≤ xs.length ∧ slice xs i (i + a.length) = some a ∧ xs.drop (i + a.length) = b := by
  have hlen := congrArg List.length h
  rw [List.length_drop, List.length_append] at hlen
  have hle : i + a.length ≤ xs.length := by omega
  refine ⟨hle, ?_, ?_⟩
  · rw [slice, if_pos ⟨Nat.le_add_right _ _, hle⟩, h, Nat.add_sub_cancel_left,
      List.take_append_of_le_length le_rfl, List.take_length]
  · rw [← List.drop_drop, h, List.drop_append_of_le_length le_rfl, List.drop_length,
      List.nil_append]

theorem saturatingMul_le {a b c : ℕ} (h : a ≤ b) : saturatingMul a c ≤ saturatingMul b c :=
  min_le_min_right _ (Nat.mul_le_mul_right c h)

variable {σ : Type}

/-- The decoder can be created, and gives for each packet at most `MAX_FRAME_SAMPLES` samples per
channel. -/
structure Succeeds (d : Decoder σ) : Prop where
  create : ∃ st, d.create = .ok st
  decode : ∀ st packet buf, ∃ n buf' st', d.decode st packet buf = .ok (n, buf', st') ∧
    n ≤ maxFrameSamples

variable {d : Decoder σ} {truncated : String} {decodeErr : String → String} {channels : ℕ}
  {packets rest : Bytes} {scratch decoded : List Int16} {handed : List Bytes} {st : σ} {cursor : ℕ}

/-- Too few bytes for a length: the loop ends. -/
theorem decodeLoop_end (h : packets.length < cursor + 4) :
    decodeLoop d truncated decodeErr channels packets cursor st scratch decoded handed =
      (.ok decoded, handed) := by
  rw [decodeLoop, if_neg (by simp only [packetPrefixBytes]; omega)]

/-- A payload that is cut is reported. -/
theorem decodeLoop_cut (hcursor : cursor ≤ packets.length) (hrest : packets.drop cursor = rest)
    (hlen : 4 ≤ rest.length) (hcut : Incomplete lengths rest) :
    decodeLoop d truncated decodeErr channels packets cursor st scratch decoded handed =
      (.err truncated, handed) := by
  have htake : (rest.take 4).length = 4 := by rw [List.length_take]; omega
  have hdrop : packets.drop cursor = rest.take 4 ++ rest.drop 4 := by
    rw [hrest, List.take_append_drop]
  obtain ⟨hle, hslice, -⟩ := slice_eq hcursor hdrop
  rw [htake] at hle hslice
  have htotal := congrArg List.length hrest
  rw [List.length_drop] at htotal
  have hshort : rest.length < 4 + lengths.dec (rest.take 4) := by
    rcases hcut with h | h
    · exact absurd h (not_lt.mpr hlen)
    · exact h
  have hpos : lengths.dec (rest.take 4) ≠ 0 := by omega
  rw [decodeLoop, packetPrefixBytes, if_pos hle, hslice, Option.bind_some, lenOf_eq htake]
  simp only
  rw [if_neg hpos, if_pos (by omega)]

/-- A record is read: an empty payload is passed over, any other handed to the decoder. -/
theorem decodeLoop_record (hd : Succeeds d) (hcursor : cursor ≤ packets.length) {p : Bytes}
    (hp : p.length < 2 ^ 32) (hrest : packets.drop cursor = record lengths p ++ rest)
    (hscratch : scratch.length = saturatingMul maxFrameSamples channels) :
    ∃ cursor' st' scratch' decoded', cursor' ≤ packets.length ∧ packets.drop cursor' = rest ∧
      scratch'.length = saturatingMul maxFrameSamples channels ∧
      decodeLoop d truncated decodeErr channels packets cursor st scratch decoded handed =
        decodeLoop d truncated decodeErr channels packets cursor' st' scratch' decoded'
          (handed ++ [p].filter (· ≠ [])) := by
  have hdrop : packets.drop cursor = lengths.enc p.length ++ (p ++ rest) := by
    rw [hrest, record, List.append_assoc]
  have hwidth : (lengths.enc p.length).length = 4 := lengths.length_enc _
  obtain ⟨hle, hslice, hdrop⟩ := slice_eq hcursor hdrop
  rw [hwidth] at hle hslice hdrop
  have hlen : lenOf (lengths.enc p.length) = some p.length := by
    rw [lenOf_eq hwidth, lengths.dec_enc _ hp]
  by_cases hnil : p = []
  · subst hnil
    refine ⟨cursor + 4, st, scratch, decoded, hle, hdrop, hscratch, ?_⟩
    rw [decodeLoop, packetPrefixBytes, if_pos hle, hslice, Option.bind_some, hlen]
    simp
  · have hpos : p.length ≠ 0 := by rwa [ne_eq, List.length_eq_zero_iff]
    obtain ⟨hle', hslice', hdrop'⟩ := slice_eq hle hdrop
    obtain ⟨n, buf, st', hdecode, hn⟩ := hd.decode st p scratch
    have hbuf : buf.length = saturatingMul maxFrameSamples channels :=
      (d.length_decode hdecode).trans hscratch
    have hcount : saturatingMul n channels ≤ buf.length := by
      rw [hbuf]
      exact saturatingMul_le hn
    have hsamples : slice buf 0 (saturatingMul n channels) =
        some (buf.take (saturatingMul n channels)) := by
      rw [slice, if_pos ⟨Nat.zero_le _, hcount⟩, List.drop_zero, Nat.sub_zero]
    have hfilter : [p].filter (· ≠ []) = [p] := by simp [hnil]
    have hstep : ∃ decoded',
        decodeLoop d truncated decodeErr channels packets cursor st scratch decoded handed =
          decodeLoop d truncated decodeErr channels packets (cursor + 4 + p.length) st' buf decoded'
            (handed ++ [p]) := by
      rw [decodeLoop, packetPrefixBytes, if_pos hle, hslice, Option.bind_some, hlen]
      simp only [hpos, if_false, gt_iff_lt, not_lt.mpr hle', hslice', hdecode, hsamples]
      split_ifs
      · exact ⟨_, rfl⟩
      · exact ⟨_, rfl⟩
    obtain ⟨decoded', hstep⟩ := hstep
    exact ⟨cursor + 4 + p.length, st', buf, decoded', hle', hdrop', hbuf, by rw [hfilter, hstep]⟩

/-- **What the loop makes of a stream and a rest.** -/
theorem decodeLoop_eq (hd : Succeeds d) {ps : List Bytes} (hps : Bounded lengths ps)
    (hrest : Incomplete lengths rest) :
    ∀ {cursor : ℕ} {st : σ} {scratch decoded : List Int16} {handed : List Bytes},
      cursor ≤ packets.length → packets.drop cursor = stream lengths ps ++ rest →
      scratch.length = saturatingMul maxFrameSamples channels →
      ∃ decoded',
        decodeLoop d truncated decodeErr channels packets cursor st scratch decoded handed =
        (if rest.length < 4 then .ok decoded' else .err truncated,
          handed ++ ps.filter (· ≠ [])) := by
  induction ps with
  | nil =>
    intro cursor st scratch decoded handed hcursor hdrop hscratch
    rw [stream_nil, List.nil_append] at hdrop
    refine ⟨decoded, ?_⟩
    split_ifs with hlen
    · have hend : packets.length < cursor + 4 := by
        have := congrArg List.length hdrop
        rw [List.length_drop] at this
        omega
      rw [decodeLoop_end hend, List.filter_nil, List.append_nil]
    · rw [decodeLoop_cut hcursor hdrop (not_lt.mp hlen) hrest, List.filter_nil, List.append_nil]
  | cons p ps ih =>
    intro cursor st scratch decoded handed hcursor hdrop hscratch
    obtain ⟨hp, hps⟩ := bounded_cons.mp hps
    rw [stream_cons, List.append_assoc] at hdrop
    obtain ⟨cursor', st', scratch', decoded', hcursor', hdrop', hscratch', hstep⟩ :=
      decodeLoop_record hd hcursor hp hdrop hscratch
    obtain ⟨decoded'', hloop⟩ := ih hps hcursor' hdrop' hscratch'
    refine ⟨decoded'', ?_⟩
    rw [hstep, hloop, List.append_assoc, ← List.filter_append, List.singleton_append]

/-! ### The decoders -/

/-- A string that is a stream of records is decoded, its payloads that are not empty being handed to
the decoder in order; any other is reported as truncated. -/
def ParsesExactly (decode : Bytes → Outcome (List Int16) × List Bytes) (truncated : String)
    (packets : Bytes) : Prop :=
  (∀ ps, Bounded lengths ps → packets = stream lengths ps →
    (∃ decoded, (decode packets).1 = .ok decoded) ∧ (decode packets).2 = ps.filter (· ≠ [])) ∧
  ((∀ ps, Bounded lengths ps → packets ≠ stream lengths ps) → (decode packets).1 = .err truncated)

/-- The string is cut in the length of a record: after its records one to three bytes are left. -/
def CutInLength (packets : Bytes) : Prop :=
  ∃ ps rest, Bounded lengths ps ∧ packets = stream lengths ps ++ rest ∧ 1 ≤ rest.length ∧
    rest.length < 4

theorem incomplete_of_lt (h : rest.length < 4) : Incomplete lengths rest := Or.inl h

/-- A string with a rest is no stream. -/
theorem ne_stream {ps : List Bytes} (hps : Bounded lengths ps) (hrest : Incomplete lengths rest)
    (hne : rest ≠ []) (ps' : List Bytes) (hps' : Bounded lengths ps') :
    stream lengths ps ++ rest ≠ stream lengths ps' := by
  intro h
  rw [← List.append_nil (stream lengths ps')] at h
  exact hne (stream_inj hps hps' hrest incomplete_nil h).2

/-- What a decoding function makes of a stream and a rest. -/
def Reads (decode : Bytes → Outcome (List Int16) × List Bytes) (truncated : String) : Prop :=
  ∀ ps rest, Bounded lengths ps → Incomplete lengths rest →
    ∃ decoded, decode (stream lengths ps ++ rest) =
      (if rest.length < 4 then .ok decoded else .err truncated, ps.filter (· ≠ []))

theorem soundkit_reads (hd : Succeeds d) (channels : ℕ) :
    Reads (decodeWithSoundkit d channels) "truncated soundkit packet stream" := by
  intro ps rest hps hrest
  obtain ⟨st, hst⟩ := hd.create
  rw [decodeWithSoundkit, hst]
  exact decodeLoop_eq hd hps hrest (Nat.zero_le _) rfl List.length_replicate

theorem libopusRust_reads (hd : Succeeds d) (channels : ℕ) :
    Reads (decodeWithLibopusRust d channels) "truncated libopus-rs packet stream" := by
  intro ps rest hps hrest
  obtain ⟨st, hst⟩ := hd.create
  rw [decodeWithLibopusRust, hst]
  exact decodeLoop_eq hd hps hrest (Nat.zero_le _) rfl List.length_replicate

section decoding

variable {decode : Bytes → Outcome (List Int16) × List Bytes} (h : Reads decode truncated)

include h

/-- No slice is out of bounds. -/
theorem Reads.not_panicked (packets : Bytes) : (decode packets).1 ≠ .panicked := by
  obtain ⟨ps, rest, rfl, hps, hrest⟩ := exists_stream lengths packets
  obtain ⟨decoded, heq⟩ := h ps rest hps hrest
  rw [heq]
  simp only
  split_ifs
  · exact fun hpanic => by cases hpanic
  · exact fun hpanic => by cases hpanic

/-- A stream is decoded. -/
theorem Reads.of_stream {ps : List Bytes} (hps : Bounded lengths ps) :
    (∃ decoded, (decode (stream lengths ps)).1 = .ok decoded) ∧
      (decode (stream lengths ps)).2 = ps.filter (· ≠ []) := by
  obtain ⟨decoded, heq⟩ := h ps [] hps incomplete_nil
  rw [List.append_nil] at heq
  rw [heq]
  exact ⟨⟨decoded, rfl⟩, rfl⟩

/-- A string that is cut in a length is taken for a stream. -/
theorem Reads.not_parsesExactly {packets : Bytes} (hcut : CutInLength packets) :
    ¬ ParsesExactly decode truncated packets := by
  rintro ⟨-, hother⟩
  obtain ⟨ps, rest, hps, rfl, hpos, hlt⟩ := hcut
  have hne : rest ≠ [] := List.ne_nil_of_length_pos hpos
  have herr := hother (ne_stream hps (incomplete_of_lt hlt) hne)
  obtain ⟨decoded, heq⟩ := h ps rest hps (incomplete_of_lt hlt)
  rw [heq, if_pos hlt] at herr
  cases herr

theorem Reads.parsesExactly_iff (packets : Bytes) :
    ParsesExactly decode truncated packets ↔ ¬ CutInLength packets := by
  constructor
  · exact fun hparses hcut => h.not_parsesExactly hcut hparses
  · intro hcut
    refine ⟨fun ps hps heq => heq ▸ h.of_stream hps, fun hother => ?_⟩
    obtain ⟨ps, rest, rfl, hps, hrest⟩ := exists_stream lengths packets
    obtain ⟨decoded, heq⟩ := h ps rest hps hrest
    have hlen : ¬ rest.length < 4 := by
      intro hlt
      rcases List.eq_nil_or_concat rest with rfl | ⟨l, b, rfl⟩
      · exact hother ps hps (List.append_nil _)
      · exact hcut ⟨ps, _, hps, rfl, by simp, hlt⟩
    rw [heq, if_neg hlen]

end decoding

/-! ### The encoders -/

/-- The packets that an encoder has made are written as a stream. -/
structure Writes (packets : Bytes) (made : List Bytes) : Prop where
  bounded : Bounded lengths made
  notMem : [] ∉ made
  eq : packets = stream lengths made

theorem writes_nil : Writes [] [] := ⟨bounded_nil, List.not_mem_nil, rfl⟩

theorem Writes.concat {packets packet : Bytes} {made : List Bytes} {n : ℕ} (h : Writes packets made)
    (hn : n ≠ 0) (hlen : packet.length = n) (hlt : n < 2 ^ 32) :
    Writes (packets ++ toLeBytes (.ofNat n) ++ packet) (made ++ [packet]) := by
  subst hlen
  refine ⟨fun p hp => ?_, fun hmem => ?_, ?_⟩
  · rcases List.mem_append.mp hp with hp | hp
    · exact h.bounded p hp
    · rw [List.mem_singleton.mp hp]
      exact hlt
  · rcases List.mem_append.mp hmem with hmem | hmem
    · exact h.notMem hmem
    · rw [← List.mem_singleton.mp hmem] at hn
      exact hn rfl
  · rw [stream_concat, ← h.eq, record, List.append_assoc]
    rfl

theorem slice_length {α : Type} {xs ys : List α} {n : ℕ} (h : slice xs 0 n = some ys) :
    ys.length = n ∧ n ≤ xs.length := by
  unfold slice at h
  split_ifs at h with hc
  cases h
  refine ⟨?_, hc.2⟩
  rw [List.drop_zero, Nat.sub_zero, List.length_take]
  exact min_eq_left hc.2

/-- **The loop of the encoders.** -/
theorem encodeLoop_writes (e : Encoder σ) (encodeErr : String → String) (frameSamples : ℕ)
    {chunks : List (List Int16)} {out : Bytes} {made' : List Bytes} :
    ∀ {st : σ} {encoded packets : Bytes} {made : List Bytes}, encoded.length = 1500 →
      Writes packets made →
      encodeLoop e encodeErr frameSamples chunks st encoded packets made = (.ok out, made') →
      Writes out made' := by
  induction chunks with
  | nil =>
    intro st encoded packets made hlen hw h
    cases h
    exact hw
  | cons chunk chunks ih =>
    intro st encoded packets made hlen hw h
    unfold encodeLoop at h
    simp only at h
    split at h
    · cases h
    · next n buf st' hencode =>
      have hbuf : buf.length = 1500 := (e.length_encode hencode).trans hlen
      split_ifs at h with hn
      · exact ih hbuf hw h
      · split at h
        · cases h
        · next packet hslice =>
          obtain ⟨hpacket, hle⟩ := slice_length hslice
          exact ih hbuf (hw.concat hn hpacket (by omega)) h

theorem encodeWith_writes {e : Encoder σ} {encodeErr : String → String} {pcm : List Int16}
    {channels frameSize : ℕ} {setUp : Except String σ} {out : Bytes} {made : List Bytes}
    (h : encodeWith e encodeErr pcm channels frameSize setUp = (.ok out, made)) :
    Writes out made := by
  unfold encodeWith at h
  split at h
  · cases h
  · simp only at h
    split_ifs at h with hzero
    · cases h
    · exact encodeLoop_writes e encodeErr _ List.length_replicate writes_nil h

/-- A stream with these packets is decoded, each packet being handed to the decoder; a string that
it begins with and that does not end at the end of a packet is reported as truncated unless it is
cut in a length. -/
structure GivesBack (decode : Bytes → Outcome (List Int16) × List Bytes) (truncated : String)
    (packets : Bytes) (made : List Bytes) : Prop where
  decoded : ∃ decoded, (decode packets).1 = .ok decoded
  handed : (decode packets).2 = made
  truncated : ∀ cut, cut <+: packets → (∀ made', made' <+: made → cut ≠ stream lengths made') →
    ((decode cut).1 = .err truncated ↔ ¬ CutInLength cut)

/-- What an encoder has written gives back its packets. -/
theorem Reads.givesBack {decode : Bytes → Outcome (List Int16) × List Bytes}
    (h : Reads decode truncated) {made : List Bytes} (hw : Writes packets made) :
    GivesBack decode truncated packets made := by
  have hfilter : made.filter (· ≠ []) = made := by
    rw [List.filter_eq_self]
    intro p hp
    exact decide_eq_true fun hnil => hw.notMem (hnil ▸ hp)
  obtain ⟨hdecoded, hhanded⟩ := h.of_stream hw.bounded
  rw [← hw.eq] at hdecoded hhanded
  refine ⟨hdecoded, hhanded.trans hfilter, fun cut hpre hend => ?_⟩
  have hother : ∀ ps, Bounded lengths ps → cut ≠ stream lengths ps := by
    rintro ps hps rfl
    rw [hw.eq] at hpre
    exact hend ps (isPrefix_of_stream hps hw.bounded hpre) rfl
  rw [← h.parsesExactly_iff cut]
  exact ⟨fun herr => ⟨fun ps hps heq => absurd heq (hother ps hps), fun _ => herr⟩,
    fun hparses => hparses.2 hother⟩

/-- **When the packet stream is parsed exactly.** With a decoder that succeeds, neither loop slices
out of bounds, and each parses a string exactly unless the string is cut in the length of a record;
what either encoder has written gives back its packets. -/
theorem packets_parsed {σ : Type} (d : Decoder σ) (hd : Succeeds d) (channels : ℕ)
    (packets : Bytes) :
    ((decodeWithSoundkit d channels packets).1 ≠ .panicked ∧
      (decodeWithLibopusRust d channels packets).1 ≠ .panicked) ∧
    (ParsesExactly (decodeWithSoundkit d channels) "truncated soundkit packet stream" packets ↔
      ¬ CutInLength packets) ∧
    (ParsesExactly (decodeWithLibopusRust d channels) "truncated libopus-rs packet stream" packets ↔
      ¬ CutInLength packets) ∧
    ∀ (τ : Type) (e : Encoder τ) pcm encChannels frameSize made,
      encodeWithSoundkit e pcm encChannels frameSize = (.ok packets, made) ∨
        encodeWithLibopusRust e pcm encChannels frameSize = (.ok packets, made) →
      GivesBack (decodeWithSoundkit d channels) "truncated soundkit packet stream" packets made ∧
      GivesBack (decodeWithLibopusRust d channels) "truncated libopus-rs packet stream" packets
        made := by
  have hs := soundkit_reads hd channels
  have hl := libopusRust_reads hd channels
  refine ⟨⟨hs.not_panicked packets, hl.not_panicked packets⟩, hs.parsesExactly_iff packets,
    hl.parsesExactly_iff packets, fun τ e pcm encChannels frameSize made h => ?_⟩
  have hw : Writes packets made := by
    rcases h with h | h
    · exact encodeWith_writes h
    · exact encodeWith_writes h
  exact ⟨hs.givesBack hw, hl.givesBack hw⟩

/-! ### A cut in a length -/

/-- A decoder that gives no samples. -/
def silent : Decoder Unit where
  create := .ok ()
  decode _ _ buf := .ok (0, buf, ())
  length_decode h := by
    cases h
    rfl

theorem silent_succeeds : Succeeds silent :=
  ⟨⟨(), rfl⟩, fun _ _ buf => ⟨0, buf, (), rfl, Nat.zero_le _⟩⟩

/-- Half a length is no length. -/
theorem cutInLength_half : CutInLength [1, 0, 0, 0, 65, 1, 0] :=
  ⟨[[65]], [1, 0], fun p hp => by rw [List.mem_singleton.mp hp]; decide, by decide, by decide,
    by decide⟩

/-- A stream is not cut in a length. -/
theorem not_cutInLength_stream {ps : List Bytes} (hps : Bounded lengths ps) :
    ¬ CutInLength (stream lengths ps) := by
  rintro ⟨ps', rest, hps', heq, hpos, hlt⟩
  exact ne_stream hps' (incomplete_of_lt hlt) (List.ne_nil_of_length_pos hpos) ps hps heq.symm

/-- Two records are parsed exactly, one and half the length of another one are not. -/
theorem packets_parsed_two :
    ParsesExactly (decodeWithSoundkit silent 2) "truncated soundkit packet stream"
        [1, 0, 0, 0, 65, 2, 0, 0, 0, 66, 67] ∧
      ParsesExactly (decodeWithLibopusRust silent 2) "truncated libopus-rs packet stream"
        [1, 0, 0, 0, 65, 2, 0, 0, 0, 66, 67] ∧
      ¬ ParsesExactly (decodeWithSoundkit silent 2) "truncated soundkit packet stream"
        [1, 0, 0, 0, 65, 1, 0] := by
  have hbounded : Bounded lengths [[65], [66, 67]] := by
    unfold Bounded
    decide
  have hstream : ¬ CutInLength [1, 0, 0, 0, 65, 2, 0, 0, 0, 66, 67] :=
    not_cutInLength_stream hbounded
  obtain ⟨-, hsoundkit, hlibopus, -⟩ := packets_parsed silent silent_succeeds 2
    [1, 0, 0, 0, 65, 2, 0, 0, 0, 66, 67]
  exact ⟨hsoundkit.mpr hstream, hlibopus.mpr hstream,
    fun h => (packets_parsed silent silent_succeeds 2 _).2.1.mp h cutInLength_half⟩

/-- **Two records, the second cut in its length**: both loops take the string for one record. -/
theorem not_parsesExactly :
    ¬ ParsesExactly (decodeWithSoundkit silent 2) "truncated soundkit packet stream"
        [1, 0, 0, 0, 65, 1, 0] ∧
      ¬ ParsesExactly (decodeWithLibopusRust silent 2) "truncated libopus-rs packet stream"
        [1, 0, 0, 0, 65, 1, 0] :=
  ⟨(soundkit_reads silent_succeeds 2).not_parsesExactly cutInLength_half,
    (libopusRust_reads silent_succeeds 2).not_parsesExactly cutInLength_half⟩

end MediaApi.Benchmark.Packets
