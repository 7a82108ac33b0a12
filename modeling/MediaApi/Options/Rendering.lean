import MediaApi.Options.Query

/-! # The options that a query renders

A **rendering** of some options is a list of pairs that say the fields the options set, under any of
their names, in any order and in any numerals, and nothing else. Parsing it gives the options back,
and a query parsed after another one overrides it field by field. -/

namespace MediaApi.Options.Rendering

open MediaApi.Lib.LastWins MediaApi.Model.Audio MediaApi.Model.Options MediaApi.Options.Query

/-- The query of some pairs. -/
def query (pairs : List (List Char)) : String := String.ofList (['&'].intercalate pairs)

/-- The pairs render the options. -/
structure Renders (pairs : List (List Char)) (o : DecodeOptions) : Prop where
  /-- What a pair says is so. -/
  sound : ∀ pair ∈ pairs, ∃ f n, get f o = some n ∧ Says f n pair
  /-- A field that is set is said. -/
  complete : ∀ f n, get f o = some n → ∃ pair ∈ pairs, Says f n pair

/-! ### Splitting a query -/

/-- A pair that says something has no `&` in it. -/
theorem not_mem_of_say {f : Field} {n : ℕ} {pair : List Char} (h : Says f n pair) :
    '&' ∉ pair := by
  obtain ⟨key, text, rfl, hkey, hnum⟩ := h
  intro hmem
  rcases List.mem_append.mp hmem with hmem | hmem
  · exact (not_mem_of_mem_aliases hkey).2 hmem
  · rcases List.mem_cons.mp hmem with heq | hmem
    · exact absurd heq (by decide)
    · rcases hnum.mem hmem with heq | hdigit
      · exact absurd heq (by decide)
      · exact absurd hdigit (by decide)

/-- An empty query is one empty pair, which sets nothing. -/
theorem setting_nil (f : Field) : setting f [] = none := by
  cases f <;> rfl

theorem last_query {pairs : List (List Char)} (h : ∀ pair ∈ pairs, '&' ∉ pair) (f : Field) :
    last (setting f) ((query pairs).toList.splitOn '&') = last (setting f) pairs := by
  rw [query, String.toList_ofList]
  by_cases hne : pairs = []
  · subst hne
    exact setting_nil f
  · rw [List.splitOn_intercalate '&' h hne]

/-- The pairs of a query after a query. -/
theorem splitOn_append (a b : String) :
    (a ++ "&" ++ b).toList.splitOn '&' = a.toList.splitOn '&' ++ b.toList.splitOn '&' := by
  have hamp : "&".toList = ['&'] := rfl
  rw [String.toList_append, String.toList_append, hamp, List.append_assoc, List.singleton_append,
    List.splitOn_append_cons_self]

/-! ### The laws of the query options -/

theorem get_parse_eq_some_iff (q : String) (f : Field) (n : ℕ) :
    get f (parseDecodeOptions (some q)) = some n ↔
      ∃ l₁ pair l₂, q.toList.splitOn '&' = l₁ ++ pair :: l₂ ∧ Sets f n pair ∧
        ∀ later ∈ l₂, ∀ m, ¬ Sets f m later := by
  rw [get_parse, last_eq_some_iff]
  simp only [setting_eq_some_iff, setting_eq_none_iff]

theorem get_parse_eq_none_iff (q : String) (f : Field) :
    get f (parseDecodeOptions (some q)) = none ↔
      ∀ pair ∈ q.toList.splitOn '&', ∀ n, ¬ Sets f n pair := by
  rw [get_parse, last_eq_none_iff]
  simp only [setting_eq_none_iff]

theorem get_parse_append (a b : String) (f : Field) :
    get f (parseDecodeOptions (some (a ++ "&" ++ b))) =
      (get f (parseDecodeOptions (some b))).or (get f (parseDecodeOptions (some a))) := by
  rw [get_parse, get_parse, get_parse, splitOn_append, last_append]

/-- A pair that does not set a field leaves it, wherever it stands. -/
theorem get_applyPair_of_not_sets {f : Field} {pair : List Char} (h : ∀ n, ¬ Sets f n pair)
    (o : DecodeOptions) : get f (applyPair o pair) = get f o := by
  rw [get_applyPair, setting_eq_none_iff.mpr h, Option.none_or]

theorem inRange_of_get {o : DecodeOptions} (hbits : ∀ n, get .bits o = some n → InRange .bits n)
    (hchannels : ∀ n, get .channels o = some n → InRange .channels n) {f : Field} {n : ℕ}
    (h : get f o = some n) : InRange f n := by
  cases f with
  | sampleRate =>
    obtain ⟨rate, -, hrate⟩ := Option.map_eq_some_iff.mp h
    rw [← hrate]
    exact rate.toNat_lt
  | bits => exact hbits n h
  | channels => exact hchannels n h

/-- **Parsing a rendering gives the options back.** -/
theorem parse_query {pairs : List (List Char)} {o : DecodeOptions} (h : Renders pairs o)
    (hrange : ∀ f n, get f o = some n → InRange f n) :
    parseDecodeOptions (some (query pairs)) = o := by
  have hamp : ∀ pair ∈ pairs, '&' ∉ pair := by
    intro pair hpair
    obtain ⟨f, n, -, hsay⟩ := h.sound pair hpair
    exact not_mem_of_say hsay
  -- whatever a pair sets a field to is what the options have there
  have hsound : ∀ f, ∀ pair ∈ pairs, ∀ n, setting f pair = some n → get f o = some n := by
    intro f pair hpair n hn
    obtain ⟨g, m, hm, hsay⟩ := h.sound pair hpair
    obtain ⟨rfl, rfl⟩ := says_inj (setting_eq_some_iff.mp hn).1 hsay
    exact hm
  refine ext_get fun f => ?_
  rw [get_parse, last_query hamp]
  cases hf : get f o with
  | none =>
    rw [last_eq_none_iff]
    intro pair hpair
    cases hs : setting f pair with
    | none => rfl
    | some n => rw [hsound f pair hpair n hs] at hf; cases hf
  | some n =>
    obtain ⟨pair, hpair, hsay⟩ := h.complete f n hf
    refine last_eq_some_of_forall hpair (setting_eq_some_iff.mpr ⟨hsay, hrange f n hf⟩) ?_
    intro later hlater m hm
    exact Option.some.inj ((hsound f later hlater m hm).symm.trans hf)

/-- **The last valid pair wins.** A field of the parsed options is what the last pair that sets it
sets it to, and unset if none does; so a query overrides the one before it field by field, pairs
that do not set a field leave it, and every rendering of some options in range parses to them. -/
theorem last_valid_wins :
    (∀ (q : String) (f : Field),
      (∀ n, get f (parseDecodeOptions (some q)) = some n ↔
        ∃ l₁ pair l₂, q.toList.splitOn '&' = l₁ ++ pair :: l₂ ∧ Sets f n pair ∧
          ∀ later ∈ l₂, ∀ m, ¬ Sets f m later) ∧
      (get f (parseDecodeOptions (some q)) = none ↔
        ∀ pair ∈ q.toList.splitOn '&', ∀ n, ¬ Sets f n pair)) ∧
    (∀ (a b : String) (f : Field),
      get f (parseDecodeOptions (some (a ++ "&" ++ b))) =
        (get f (parseDecodeOptions (some b))).or (get f (parseDecodeOptions (some a)))) ∧
    (∀ (f : Field) (pair : List Char), (∀ n, ¬ Sets f n pair) →
      ∀ o, get f (applyPair o pair) = get f o) ∧
    ∀ (o : DecodeOptions), (∀ n, get .bits o = some n → InRange .bits n) →
      (∀ n, get .channels o = some n → InRange .channels n) →
      ∀ pairs, Renders pairs o → parseDecodeOptions (some (query pairs)) = o := by
  refine ⟨fun q f => ⟨get_parse_eq_some_iff q f, get_parse_eq_none_iff q f⟩, get_parse_append,
    fun f pair h o => get_applyPair_of_not_sets h o, fun o hbits hchannels pairs h => ?_⟩
  exact parse_query h fun f n => inRange_of_get hbits hchannels

/-! ### A stereo query -/

/-- Two channels at 44100, in unusual numerals and the other way round. -/
def stereo : List (List Char) := ["output_channels=+02".toList, "sample_rate=0044100".toList]

theorem stereo_renders :
    Renders stereo { outputSampleRate := some 44100, outputChannels := some 2 } := by
  have hchannels : Says .channels 2 "output_channels=+02".toList :=
    ⟨"output_channels", "+02".toList, rfl, by decide, ['+'], ['0', '2'], rfl, Or.inr rfl,
      by decide, List.all_eq_true.mp (by decide), by decide⟩
  have hrate : Says .sampleRate 44100 "sample_rate=0044100".toList :=
    ⟨"sample_rate", "0044100".toList, rfl, by decide, [], "0044100".toList, rfl, Or.inl rfl,
      by decide, List.all_eq_true.mp (by decide), by decide⟩
  refine ⟨fun pair hpair => ?_, fun f n hn => ?_⟩
  · rcases List.mem_pair.mp hpair with rfl | rfl
    · exact ⟨.channels, 2, rfl, hchannels⟩
    · exact ⟨.sampleRate, 44100, rfl, hrate⟩
  · cases f with
    | sampleRate =>
      cases hn
      exact ⟨_, by simp [stereo], hrate⟩
    | bits => cases hn
    | channels =>
      cases hn
      exact ⟨_, by simp [stereo], hchannels⟩

/-- The stereo query parses to what it renders, and a bit depth that is out of range changes
nothing. -/
theorem last_valid_wins_stereo :
    parseDecodeOptions (some (query stereo)) =
      { outputSampleRate := some 44100, outputChannels := some 2 } ∧
    get .bits (applyPair { outputBitsPerSample := some 24 } "bits=20".toList) = some 24 := by
  obtain ⟨-, -, hpair, hparse⟩ := last_valid_wins
  refine ⟨hparse _ (fun n h => by cases h) (fun n h => ?_) stereo stereo_renders, ?_⟩
  · cases h
    decide
  · exact hpair .bits "bits=20".toList (setting_eq_none_iff.mp (by decide)) _

end MediaApi.Options.Rendering
