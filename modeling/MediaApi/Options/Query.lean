import MediaApi.Lib.LastWins
import MediaApi.Model.Options

/-! # What a query sets: the last valid pair wins

A pair of the query **says** a number for a field if its key, the text before the first `=`, is one
of the field's names and the text after it is a numeral; it **sets** the field if the number is in
the field's range. `setting` is what the code finds in a pair, and the loop over the pairs is a fold
in which the last value found wins. -/

namespace MediaApi.Options.Query

open MediaApi.Lib.LastWins MediaApi.Model.Audio MediaApi.Model.Options

/-! ### What a pair sets -/

/-- The names of a field. -/
def aliases : Field → List String
  | .sampleRate => ["sample_rate", "output_sample_rate"]
  | .bits => ["bits", "output_bits", "bits_per_sample"]
  | .channels => ["channels", "output_channels"]

/-- A field of some options, as a number. -/
def get : Field → DecodeOptions → Option ℕ
  | .sampleRate, o => o.outputSampleRate.map UInt32.toNat
  | .bits, o => o.outputBitsPerSample.map UInt8.toNat
  | .channels, o => o.outputChannels.map UInt8.toNat

/-- The numbers a field can be set to. -/
def InRange : Field → ℕ → Prop
  | .sampleRate, n => n < 2 ^ 32
  | .bits, n => n = 16 ∨ n = 24 ∨ n = 32
  | .channels, n => 1 ≤ n ∧ n ≤ 16

/-- The text is a numeral of `n`: perhaps a `+`, then decimal digits, perhaps with leading zeros. -/
def Numeral (text : List Char) (n : ℕ) : Prop :=
  ∃ sign ds, text = sign ++ ds ∧ (sign = [] ∨ sign = ['+']) ∧ ds ≠ [] ∧
    (∀ c ∈ ds, c.isDigit = true) ∧ Nat.ofDigitChars 10 ds 0 = n

/-- The pair gives the number `n` under one of the field's names. -/
def Says (f : Field) (n : ℕ) (pair : List Char) : Prop :=
  ∃ key text, pair = key.toList ++ '=' :: text ∧ key ∈ aliases f ∧ Numeral text n

/-- The pair sets the field to `n`. -/
def Sets (f : Field) (n : ℕ) (pair : List Char) : Prop := Says f n pair ∧ InRange f n

instance decidableInRange : (f : Field) → (n : ℕ) → Decidable (InRange f n)
  | .sampleRate, n => inferInstanceAs (Decidable (n < 2 ^ 32))
  | .bits, n => inferInstanceAs (Decidable (n = 16 ∨ n = 24 ∨ n = 32))
  | .channels, n => inferInstanceAs (Decidable (1 ≤ n ∧ n ≤ 16))

theorem numeral_repr (n : ℕ) : Numeral n.repr.toList n := by
  refine ⟨[], n.repr.toList, rfl, Or.inl rfl, ?_, fun c hc => ?_, ?_⟩
  · rw [Nat.toList_repr]
    exact Nat.toDigits_ne_nil
  · rw [Nat.toList_repr] at hc
    exact Nat.isDigit_of_mem_toDigits (by decide) le_rfl hc
  · rw [Nat.toList_repr, Nat.ofDigitChars_ten_toDigits]

/-- A numeral is a `+` or a digit in each place. -/
theorem Numeral.mem {text : List Char} {n : ℕ} (h : Numeral text n) {c : Char} (hc : c ∈ text) :
    c = '+' ∨ c.isDigit = true := by
  obtain ⟨sign, ds, rfl, hsign, -, hds, -⟩ := h
  rcases List.mem_append.mp hc with hc | hc
  · rcases hsign with rfl | rfl
    · cases hc
    · exact Or.inl (List.mem_singleton.mp hc)
  · exact Or.inr (hds c hc)

/-! ### What the code finds in a pair -/

/-- The largest number of the type that a field's value is parsed into. -/
def maxOf : Field → ℕ
  | .sampleRate => 2 ^ 32 - 1
  | .bits | .channels => 2 ^ 8 - 1

/-- The number that a pair sets a field to, if any. -/
def setting (f : Field) (pair : List Char) : Option ℕ :=
  if fieldOf (splitPair pair).1 = some f then
    (parseUnsigned (maxOf f) (splitPair pair).2).filter (fun n => InRange f n)
  else none

/-- What `str::parse` makes of a text whose sign is gone. -/
def parseDigits (max : ℕ) (ds : List Char) : Option ℕ :=
  if ds ≠ [] ∧ ds.all Char.isDigit ∧ numeral ds ≤ max then some (numeral ds) else none

theorem parseUnsigned_of_ne {max : ℕ} {ds : List Char} (h : ∀ rest, ds ≠ '+' :: rest) :
    parseUnsigned max ds = parseDigits max ds := by
  cases ds with
  | nil => rfl
  | cons c ds =>
    simp [parseUnsigned, parseDigits]

theorem parseDigits_eq_some_iff {max n : ℕ} {ds : List Char} :
    parseDigits max ds = some n ↔
      ds ≠ [] ∧ (∀ c ∈ ds, c.isDigit = true) ∧ Nat.ofDigitChars 10 ds 0 = n ∧ n ≤ max := by
  unfold parseDigits
  rw [Option.ite_none_right_eq_some, List.all_eq_true, Option.some_inj]
  constructor
  · rintro ⟨⟨hne, hds, hmax⟩, rfl⟩
    exact ⟨hne, hds, rfl, hmax⟩
  · rintro ⟨hne, hds, rfl, hmax⟩
    exact ⟨⟨hne, hds, hmax⟩, rfl⟩

/-- A sign is no digit. -/
theorem ne_plus_of_digits {ds : List Char} (h : ∀ c ∈ ds, c.isDigit = true) (rest : List Char) :
    ds ≠ '+' :: rest := by
  rintro rfl
  exact absurd (h '+' (by simp)) (by decide)

/-- `str::parse` accepts the numerals that are not too large. -/
theorem parseUnsigned_eq_some_iff {max n : ℕ} {text : List Char} :
    parseUnsigned max text = some n ↔ Numeral text n ∧ n ≤ max := by
  constructor
  · intro h
    by_cases hplus : ∃ rest, text = '+' :: rest
    · obtain ⟨ds, rfl⟩ := hplus
      obtain ⟨hne, hds, hn, hmax⟩ := parseDigits_eq_some_iff.mp h
      exact ⟨⟨['+'], ds, rfl, Or.inr rfl, hne, hds, hn⟩, hmax⟩
    · rw [parseUnsigned_of_ne (not_exists.mp hplus)] at h
      obtain ⟨hne, hds, hn, hmax⟩ := parseDigits_eq_some_iff.mp h
      exact ⟨⟨[], text, rfl, Or.inl rfl, hne, hds, hn⟩, hmax⟩
  · rintro ⟨⟨sign, ds, rfl, rfl | rfl, hne, hds, hn⟩, hmax⟩
    · rw [List.nil_append, parseUnsigned_of_ne (ne_plus_of_digits hds)]
      exact parseDigits_eq_some_iff.mpr ⟨hne, hds, hn, hmax⟩
    · exact parseDigits_eq_some_iff.mpr ⟨hne, hds, hn, hmax⟩

theorem fieldOf_eq_some_iff {key : List Char} {f : Field} :
    fieldOf key = some f ↔ ∃ name ∈ aliases f, key = name.toList := by
  unfold fieldOf
  constructor
  · intro h
    split_ifs at h with h1 h2 h3
    · cases h
      simpa [aliases] using h1
    · cases h
      simpa [aliases] using h2
    · cases h
      simpa [aliases] using h3
  · rintro ⟨name, hname, rfl⟩
    cases f <;> simp only [aliases, List.mem_cons, List.not_mem_nil, or_false] at hname
    · rcases hname with rfl | rfl <;> rfl
    · rcases hname with rfl | rfl | rfl <;> rfl
    · rcases hname with rfl | rfl <;> rfl

/-- The names of the fields have no separator in them. -/
theorem not_mem_of_mem_aliases {f : Field} {name : String} (h : name ∈ aliases f) :
    '=' ∉ name.toList ∧ '&' ∉ name.toList := by
  cases f <;> simp only [aliases, List.mem_cons, List.not_mem_nil, or_false] at h
  · rcases h with rfl | rfl <;> decide
  · rcases h with rfl | rfl | rfl <;> decide
  · rcases h with rfl | rfl <;> decide

/-- A pair is cut at its first `=`. -/
theorem splitPair_append {key text : List Char} (h : '=' ∉ key) :
    splitPair (key ++ '=' :: text) = (key, text) := by
  have hkey : ∀ c ∈ key, decide (c ≠ '=') = true := by
    intro c hc
    rw [decide_eq_true_iff]
    rintro rfl
    exact h hc
  unfold splitPair
  rw [List.takeWhile_append_of_pos hkey, List.dropWhile_append_of_pos hkey]
  simp

/-- A pair whose value is not empty has a `=`. -/
theorem eq_of_splitPair {pair : List Char} (h : (splitPair pair).2 ≠ []) :
    pair = (splitPair pair).1 ++ '=' :: (splitPair pair).2 := by
  unfold splitPair at h ⊢
  have happ := List.takeWhile_append_dropWhile (p := fun c => decide (c ≠ '=')) (l := pair)
  cases hd : pair.dropWhile (fun c => decide (c ≠ '=')) with
  | nil =>
    rw [hd] at h
    exact absurd rfl h
  | cons c rest =>
    have hc := List.head?_dropWhile_not (fun c => decide (c ≠ '=')) pair
    rw [hd] at hc happ
    have hceq : c = '=' := by simpa using hc
    subst hceq
    exact happ.symm

theorem Numeral.ne_nil {text : List Char} {n : ℕ} (h : Numeral text n) : text ≠ [] := by
  obtain ⟨sign, ds, rfl, -, hne, -, -⟩ := h
  exact List.append_ne_nil_of_right_ne_nil sign hne

theorem InRange.le_maxOf {f : Field} {n : ℕ} (h : InRange f n) : n ≤ maxOf f := by
  cases f <;> simp only [InRange, maxOf] at h ⊢ <;> omega

/-- The code finds in a pair what the pair sets. -/
theorem setting_eq_some_iff {f : Field} {n : ℕ} {pair : List Char} :
    setting f pair = some n ↔ Sets f n pair := by
  unfold setting
  constructor
  · intro h
    split_ifs at h with hf
    obtain ⟨name, hname, hkey⟩ := fieldOf_eq_some_iff.mp hf
    rw [Option.filter_eq_some_iff, parseUnsigned_eq_some_iff, decide_eq_true_iff] at h
    obtain ⟨⟨hnum, -⟩, hrange⟩ := h
    refine ⟨⟨name, (splitPair pair).2, ?_, hname, hnum⟩, hrange⟩
    rw [← hkey]
    exact eq_of_splitPair hnum.ne_nil
  · rintro ⟨⟨name, text, rfl, hname, hnum⟩, hrange⟩
    rw [splitPair_append (not_mem_of_mem_aliases hname).1,
      if_pos (fieldOf_eq_some_iff.mpr ⟨name, hname, rfl⟩), Option.filter_eq_some_iff,
      parseUnsigned_eq_some_iff, decide_eq_true_iff]
    exact ⟨⟨hnum, hrange.le_maxOf⟩, hrange⟩

/-- A text is a numeral of one number. -/
theorem Numeral.unique {text : List Char} {n m : ℕ} (hn : Numeral text n) (hm : Numeral text m) :
    n = m := by
  have hn' := parseUnsigned_eq_some_iff.mpr ⟨hn, le_max_left n m⟩
  have hm' := parseUnsigned_eq_some_iff.mpr ⟨hm, le_max_right n m⟩
  exact Option.some.inj (hn'.symm.trans hm')

/-- A pair says one number, for one field. -/
theorem says_inj {f g : Field} {n m : ℕ} {pair : List Char} (hf : Says f n pair)
    (hg : Says g m pair) : f = g ∧ n = m := by
  obtain ⟨key, text, rfl, hkey, hn⟩ := hf
  obtain ⟨key', text', heq, hkey', hm⟩ := hg
  have hsplit := congrArg splitPair heq
  rw [splitPair_append (not_mem_of_mem_aliases hkey).1,
    splitPair_append (not_mem_of_mem_aliases hkey').1, Prod.mk.injEq] at hsplit
  obtain ⟨hk, rfl⟩ := hsplit
  have hfield := fieldOf_eq_some_iff.mpr ⟨key, hkey, rfl⟩
  rw [hk, fieldOf_eq_some_iff.mpr ⟨key', hkey', rfl⟩] at hfield
  exact ⟨(Option.some.inj hfield).symm, hn.unique hm⟩

/-- A pair that says a number sets its field, if the number is in range, and no other. -/
theorem setting_of_say {f g : Field} {n : ℕ} {pair : List Char} (h : Says g n pair) :
    setting f pair = if f = g ∧ InRange g n then some n else none := by
  split_ifs with hc
  · obtain ⟨rfl, hrange⟩ := hc
    exact setting_eq_some_iff.mpr ⟨h, hrange⟩
  · cases hs : setting f pair with
    | none => rfl
    | some m =>
      obtain ⟨hsay, hrange⟩ := setting_eq_some_iff.mp hs
      obtain ⟨rfl, rfl⟩ := says_inj hsay h
      exact absurd ⟨rfl, hrange⟩ hc

theorem setting_eq_none_iff {f : Field} {pair : List Char} :
    setting f pair = none ↔ ∀ n, ¬ Sets f n pair := by
  simp only [Option.eq_none_iff_forall_ne_some, ne_eq, setting_eq_some_iff]

/-! ### The loop over the pairs -/

/-- The options with a field set. -/
def set : Field → ℕ → DecodeOptions → DecodeOptions
  | .sampleRate, n, o => { o with outputSampleRate := some (UInt32.ofNat n) }
  | .bits, n, o => { o with outputBitsPerSample := some (UInt8.ofNat n) }
  | .channels, n, o => { o with outputChannels := some (UInt8.ofNat n) }

theorem get_set {f g : Field} {n : ℕ} {o : DecodeOptions} (h : n ≤ maxOf g) :
    get f (set g n o) = if g = f then some n else get f o := by
  cases g <;> simp only [maxOf] at h
  · have hn : n % 2 ^ 32 = n := by omega
    cases f <;> simp_all [get, set]
  · have hn : n % 2 ^ 8 = n := by omega
    cases f <;> simp_all [get, set]
  · have hn : n % 2 ^ 8 = n := by omega
    cases f <;> simp_all [get, set]

/-- A pair sets the field that its key names, if it sets any. -/
theorem applyPair_eq (o : DecodeOptions) (pair : List Char) :
    applyPair o pair =
      (fieldOf (splitPair pair).1).elim o fun g => (setting g pair).elim o fun n => set g n o := by
  unfold applyPair setting
  obtain ⟨key, value⟩ := splitPair pair
  simp only
  cases hkey : fieldOf key with
  | none => rfl
  | some g =>
    simp only [Option.elim_some, if_true]
    cases g with
    | sampleRate =>
      simp only [maxOf]
      cases hp : parseUnsigned (2 ^ 32 - 1) value with
      | none => rfl
      | some n =>
        have hn : InRange .sampleRate n := by
          have := (parseUnsigned_eq_some_iff.mp hp).2
          simp only [InRange]
          omega
        rw [Option.filter_some, if_pos (decide_eq_true hn)]
        rfl
    | bits =>
      simp only [maxOf]
      cases hp : parseUnsigned (2 ^ 8 - 1) value with
      | none => rfl
      | some n =>
        rw [Option.filter_some]
        by_cases hn : InRange .bits n
        · rw [if_pos (decide_eq_true hn)]
          exact if_pos hn
        · rw [if_neg (by rwa [decide_eq_true_iff])]
          exact if_neg hn
    | channels =>
      simp only [maxOf]
      cases hp : parseUnsigned (2 ^ 8 - 1) value with
      | none => rfl
      | some n =>
        rw [Option.filter_some]
        by_cases hn : InRange .channels n
        · rw [if_pos (decide_eq_true hn)]
          exact if_pos hn
        · rw [if_neg (by rwa [decide_eq_true_iff])]
          exact if_neg hn

/-- **One pass of the loop**: a field gets what the pair sets it to, or stays as it is. -/
theorem get_applyPair (f : Field) (o : DecodeOptions) (pair : List Char) :
    get f (applyPair o pair) = (setting f pair).or (get f o) := by
  rw [applyPair_eq]
  have hother : fieldOf (splitPair pair).1 ≠ some f → setting f pair = none := fun h => if_neg h
  cases hkey : fieldOf (splitPair pair).1 with
  | none => rw [hother (by simp [hkey]), Option.none_or, Option.elim_none]
  | some g =>
    rw [Option.elim_some]
    by_cases hfg : g = f
    · subst hfg
      cases hs : setting g pair with
      | none => rfl
      | some n => simp [get_set (setting_eq_some_iff.mp hs).2.le_maxOf]
    · rw [hother (by simp [hkey, hfg]), Option.none_or]
      cases hs : setting g pair with
      | none => rfl
      | some n => simp [get_set (setting_eq_some_iff.mp hs).2.le_maxOf, hfg]

/-- **The loop**: the last value found wins. -/
theorem get_parse (f : Field) (q : String) :
    get f (parseDecodeOptions (some q)) = last (setting f) (q.toList.splitOn '&') := by
  refine (get_foldl (get_applyPair f) (q.toList.splitOn '&') {}).trans ?_
  cases f <;> exact Option.or_none

/-- Options are known by their fields. -/
theorem ext_get {o o' : DecodeOptions} (h : ∀ f, get f o = get f o') : o = o' := by
  obtain ⟨r, b, c⟩ := o
  obtain ⟨r', b', c'⟩ := o'
  have hr : r = r' := Option.map_injective (fun _ _ => UInt32.toNat_inj.mp) (h .sampleRate)
  have hb : b = b' := Option.map_injective (fun _ _ => UInt8.toNat_inj.mp) (h .bits)
  have hc : c = c' := Option.map_injective (fun _ _ => UInt8.toNat_inj.mp) (h .channels)
  rw [hr, hb, hc]

end MediaApi.Options.Query
