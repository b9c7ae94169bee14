import DeltaSwamp.Storage.Engine

/-!
# Options of one principal

What the layers of `engine_options` make of each setting: one source for every
credential, and no setting of another principal's beside a vended one.
-/

namespace DeltaSwamp.Storage

variable (casing : Casing)

/-- The options set a credential. -/
def Vends (cloud : Option Cloud) (options : Options) : Prop :=
  ∃ name ∈ credentialKeys cloud, ∃ value, Sets casing cloud options name value

/-- An S3 endpoint is vended. -/
def VendsEndpoint (cloud : Option Cloud) (vended : Options) : Prop :=
  cloud = some .s3 ∧ ∃ value, Sets casing cloud vended endpoint value ∧ value ≠ []

/-- The vended credential belongs to another AWS partition than the region. -/
def OtherPartition (cloud : Option Cloud) (vended : Options) (value : Text) : Prop :=
  Vends casing cloud vended ∧ ∃ r, Sets casing cloud vended region r ∧ r ≠ [] ∧
    partitionOf casing value ≠ partitionOf casing r

/-- No setting is another principal's. -/
structure Unmixed (base vended : Options) (location : Text) (environment options : Options) :
    Prop where
  once : (options.map fun e => canonicalKey casing e.1 (cloudOf casing location)).Nodup
  vendedCredentials : Vends casing (cloudOf casing location) vended →
    ∀ name ∈ credentialKeys (cloudOf casing location), ∀ value,
      options.get name = some value ↔ Sets casing (cloudOf casing location) vended name value
  ownCredentials : ¬ Vends casing (cloudOf casing location) vended →
    Vends casing (cloudOf casing location) base →
    ∀ name ∈ credentialKeys (cloudOf casing location), ∀ value,
      options.get name = some value ↔ Sets casing (cloudOf casing location) base name value
  otherCredentials : ¬ Vends casing (cloudOf casing location) vended →
    ¬ Vends casing (cloudOf casing location) base →
    ∀ name ∈ credentialKeys (cloudOf casing location), ∀ value,
      options.get name = some value → SetsInEnvironment casing environment name value
  apart : vendsByName casing vended = true → ∀ name ∈ [endpoint, style], ∀ value,
    options.get name = some value → Sets casing (cloudOf casing location) vended name value ∨
      Sets casing (cloudOf casing location) base name value ∨
      name = endpoint ∧ ∃ r, options.get region = some r ∧ value = regionalEndpoint casing r
  inPartition : ∀ value, options.get region = some value →
    ¬ OtherPartition casing (cloudOf casing location) vended value
  endpointUnit : VendsEndpoint casing (cloudOf casing location) vended →
    ∀ name ∈ s3EndpointUnit, ∀ value,
      (Sets casing (cloudOf casing location) vended name value →
        options.get name = some value) ∧
      (options.get name = some value →
        Sets casing (cloudOf casing location) vended name value ∨
          name ≠ endpoint ∧ SetsInEnvironment casing environment name value)
  wins : ∀ name value, Sets casing (cloudOf casing location) base name value →
    ¬ (Vends casing (cloudOf casing location) vended ∧
      name ∈ credentialKeys (cloudOf casing location)) →
    ¬ (VendsEndpoint casing (cloudOf casing location) vended ∧ name ∈ s3EndpointUnit) →
    ¬ (name = region ∧ OtherPartition casing (cloudOf casing location) vended value) →
    ¬ (name = endpoint ∧ value = []) → options.get name = some value

variable {casing} {cloud : Option Cloud} {base vended user given options environment : Options}
  {location : Text}

theorem Canonical.vendsCredential_iff (h : Canonical casing cloud vended given) :
    vendsCredential cloud given = true ↔ Vends casing cloud vended := by
  simp only [vendsCredential, List.any_eq_true, decide_eq_true_eq]
  constructor
  · rintro ⟨⟨name, value⟩, hmem, hname⟩
    exact ⟨name, hname, value, (h.holds name value).mp (Dict.get_of_mem h.nodup hmem)⟩
  · rintro ⟨name, hname, value, hsets⟩
    exact ⟨(name, value), Dict.mem_of_get ((h.holds name value).mpr hsets), hname⟩

theorem truthy_iff {value : Option Text} : truthy value = true ↔ ∃ v, value = some v ∧ v ≠ [] := by
  cases value <;> simp [truthy]

variable {name value : Text}

theorem Canonical.yields_iff (h : Canonical casing cloud vended given) :
    yields casing cloud given (name, value) = true ↔
      (Vends casing cloud vended ∧ name ∈ credentialKeys cloud) ∨
      (VendsEndpoint casing cloud vended ∧ name ∈ s3EndpointUnit) ∨
      (name = region ∧ OtherPartition casing cloud vended value) := by
  have hendpoint : (cloud = some .s3 ∧ truthy (given.get endpoint) = true) ↔
      VendsEndpoint casing cloud vended := by
    simp only [VendsEndpoint, truthy_iff, h.holds]
  have hregion : (truthy (given.get region) = true ∧
      partitionOf casing value ≠ partitionOf casing ((given.get region).getD [])) ↔
      ∃ r, Sets casing cloud vended region r ∧ r ≠ [] ∧
        partitionOf casing value ≠ partitionOf casing r := by
    rw [truthy_iff]
    constructor
    · rintro ⟨⟨r, hr, hne⟩, hpartition⟩
      rw [hr] at hpartition
      exact ⟨r, (h.holds _ _).mp hr, hne, hpartition⟩
    · rintro ⟨r, hr, hne, hpartition⟩
      have hget := (h.holds _ _).mpr hr
      rw [hget]
      exact ⟨⟨r, rfl, hne⟩, hpartition⟩
  simp only [yields, Bool.or_eq_true, Bool.and_eq_true, decide_eq_true_eq,
    h.vendsCredential_iff, hendpoint, OtherPartition, ← hregion, and_assoc, or_assoc]

/-- The merged options under a name: the caller's where it stays, else the vended setting. -/
theorem merged_cases (huser : Canonical casing cloud base user)
    (hgiven : Canonical casing cloud vended given) (name value : Text) :
    (merged casing cloud user given).get name = some value ↔
      (Sets casing cloud base name value ∧
        ¬ yields casing cloud given (name, value) = true) ∨
      (Sets casing cloud vended name value ∧
        ∀ v, Sets casing cloud base name v → yields casing cloud given (name, v) = true) := by
  rw [merged_get huser.nodup, ← huser.holds, ← hgiven.holds]
  simp only [← huser.holds]
  cases hget : user.get name with
  | none => simp
  | some v =>
    by_cases hyields : yields casing cloud given (name, v) = true
    · simp only [hyields, if_true, Option.some.injEq, forall_eq', and_true]
      constructor
      · exact .inr
      · rintro (⟨rfl, hnot⟩ | hgiven)
        · exact absurd hyields hnot
        · exact hgiven
    · simp only [hyields, Bool.false_eq_true, if_false, Option.some.injEq, forall_eq', and_false,
        or_false]
      constructor
      · rintro rfl
        exact ⟨rfl, hyields⟩
      · rintro ⟨rfl, -⟩
        rfl

theorem environmentLeft_get (name : Text) :
    (environmentLeft casing vended environment).get name =
      if vendsByName casing vended = true ∧ name ∈ [endpoint, style] then none
      else environment.get name := by
  rw [environmentLeft]
  by_cases hvends : vendsByName casing vended = true
  · rw [if_pos hvends, Dict.get_pop, Dict.get_pop]
    by_cases hstyle : name = style
    · simp [hvends, hstyle]
    · by_cases hendpoint : name = endpoint <;> simp [hvends, hstyle, hendpoint]
  · simp [hvends]

theorem environmentLeft_nodup (h : (environment.map Prod.fst).Nodup) :
    ((environmentLeft casing vended environment).map Prod.fst).Nodup := by
  rw [environmentLeft]
  split_ifs
  · exact Dict.nodup_pop (Dict.nodup_pop h _) _
  · exact h

variable (casing options location) in
theorem pinS3Endpoint_get (pinned : Bool) (name : Text) :
    (pinS3Endpoint casing options location pinned).get name = options.get name ∨
      (name = endpoint ∧ cloudOf casing location = some .s3 ∧
        truthy (options.get endpoint) = false ∧
        ∃ r, options.get region = some r ∧
          (pinS3Endpoint casing options location pinned).get name =
            some (regionalEndpoint casing r)) := by
  rw [pinS3Endpoint]
  split_ifs with hcloud
  · cases hregion : options.get region with
    | none => exact .inl rfl
    | some r =>
      simp only []
      split_ifs with hnot hpins
      · exact .inl rfl
      · rw [Dict.get_set]
        split_ifs with hname
        · push Not at hnot
          exact .inr ⟨hname, hcloud, by simpa using hnot.2.2, r, rfl, rfl⟩
        · exact .inl rfl
      · exact .inl rfl
  · exact .inl rfl

theorem pinS3Endpoint_nodup (h : (options.map Prod.fst).Nodup) (pinned : Bool) :
    ((pinS3Endpoint casing options location pinned).map Prod.fst).Nodup := by
  rw [pinS3Endpoint]
  split_ifs
  · cases options.get region with
    | none => exact h
    | some r =>
      simp only []
      split_ifs
      · exact h
      · exact Dict.nodup_set h _ _
      · exact h
  · exact h

/-- The environment's part of the layered options. -/
def added (casing : Casing) (vended : Options) (location : Text) (environment options : Options) :
    Options :=
  environmentLeft casing vended (environmentOptions casing location options environment)

theorem added_nodup : ((added casing vended location environment options).map Prod.fst).Nodup :=
  environmentLeft_nodup (environmentOptions_nodup environment)

theorem added_sound (h : (added casing vended location environment options).get name = some value) :
    ¬ (vendsByName casing vended = true ∧ name ∈ [endpoint, style]) ∧
      cloudOf casing location = some .s3 ∧ admits options name = true ∧
      SetsInEnvironment casing environment name value := by
  rw [added, environmentLeft_get] at h
  split_ifs at h with hleft
  exact ⟨hleft, environmentOptions_sound h⟩

theorem admits_iff : admits options name = true ↔
    knownInEnvironment name = true ∧ options.get name = none ∧
      ¬ (vendsCredential (some .s3) options = true ∧ name ∈ credentialKeys (some .s3)) := by
  simp only [admits, Bool.and_eq_true, Bool.not_eq_true', Option.isNone_iff_eq_none,
    Bool.and_eq_false_iff, decide_eq_false_iff_not, and_assoc, not_and_or, Bool.not_eq_true]

theorem update_added_get (name : Text) :
    Dict.get (options.update (added casing vended location environment options)) name =
      (options.get name).or ((added casing vended location environment options).get name) := by
  rw [Dict.get_update _ added_nodup]
  cases hadded : (added casing vended location environment options).get name with
  | none => simp
  | some value =>
    have hnone := (admits_iff.mp (added_sound hadded).2.2.1).2.1
    rw [hnone]
    rfl

/-- A setting of the layered options is a merged one, the environment's where nothing else sets
it, or a pinned endpoint. -/
theorem layered_cases
    (h : (layered casing vended location environment options).get name = some value) :
    options.get name = some value ∨
      (added casing vended location environment options).get name = some value ∨
      (name = endpoint ∧ cloudOf casing location = some .s3 ∧ ∃ r,
        (layered casing vended location environment options).get region = some r ∧
        value = regionalEndpoint casing r) := by
  have hregion : (layered casing vended location environment options).get region =
      Dict.get (options.update (added casing vended location environment options)) region := by
    rcases pinS3Endpoint_get casing
      (options.update (added casing vended location environment options))
      location (decide (vended ≠ [])) region with hsame | ⟨hname, -⟩
    · exact hsame
    · exact absurd hname (by decide)
  rcases pinS3Endpoint_get casing
    (options.update (added casing vended location environment options))
      location (decide (vended ≠ [])) name with hsame | ⟨hname, hcloud, -, r, hr, hpinned⟩
  · have hget : (layered casing vended location environment options).get name =
        Dict.get (options.update (added casing vended location environment options)) name := hsame
    rw [h, update_added_get] at hget
    exact (Option.or_eq_some_iff.mp hget.symm).imp_right fun hadded => .inl hadded.2
  · have hget : (layered casing vended location environment options).get name =
        some (regionalEndpoint casing r) := hpinned
    rw [h] at hget
    exact .inr (.inr ⟨hname, hcloud, r, hregion.trans hr, Option.some.inj hget⟩)

theorem layered_of_merged (h : options.get name = some value)
    (hempty : ¬ (name = endpoint ∧ value = [])) :
    (layered casing vended location environment options).get name = some value := by
  have hget : Dict.get (options.update (added casing vended location environment options)) name =
      some value := by
    rw [update_added_get, h]
    rfl
  rcases pinS3Endpoint_get casing
    (options.update (added casing vended location environment options))
      location (decide (vended ≠ [])) name with hsame | ⟨hname, -, hfalse, -⟩
  · exact hsame.trans hget
  · subst hname
    have htruthy : truthy (some value) = true := by
      simpa [truthy] using hempty
    rw [hget, htruthy] at hfalse
    cases hfalse

theorem layered_nodup (h : (options.map Prod.fst).Nodup) :
    ((layered casing vended location environment options).map Prod.fst).Nodup :=
  pinS3Endpoint_nodup (Dict.nodup_update h _) _

theorem credential_not_unit (cloud : Option Cloud) :
    ∀ name ∈ credentialKeys cloud, name ∉ s3EndpointUnit := by
  cases cloud with
  | none => exact nofun
  | some cloud => cases cloud <;> decide +kernel

theorem credential_ne {other : Text} (h : name ∈ credentialKeys cloud)
    (hother : other ∈ s3EndpointUnit) : name ≠ other := by
  rintro rfl
  exact credential_not_unit cloud name h hother

theorem canonicalKey_endpoint : canonicalKey casing endpoint (some .s3) = endpoint := by
  obtain ⟨hplain, hown, hself⟩ := (names_canonical .s3).1 endpoint (by decide +kernel)
  apply canonicalKey_alias
  · rwa [hplain.lower]
  · rwa [hplain.lower]

theorem added_not_credential {other : Text}
    (hname : name ∈ credentialKeys (cloudOf casing location))
    (hother : other ∈ credentialKeys (cloudOf casing location)) (hthere : options.get other ≠ none)
    (h : (added casing vended location environment options).get name = some value) : False := by
  obtain ⟨-, hcloud, hadmits, -⟩ := added_sound h
  rw [hcloud] at hname hother
  obtain ⟨v, hv⟩ := Option.ne_none_iff_exists'.mp hthere
  apply (admits_iff.mp hadmits).2.2
  refine ⟨?_, hname⟩
  rw [vendsCredential, List.any_eq_true]
  exact ⟨(other, v), Dict.mem_of_get hv, decide_eq_true hother⟩

section
variable (huser : Canonical casing (cloudOf casing location) base user)
  (hgiven : Canonical casing (cloudOf casing location) vended given)

include huser hgiven

variable {name value : Text}

theorem merged_vended (hsets : Sets casing (cloudOf casing location) vended name value)
    (hyields : ∀ v, Sets casing (cloudOf casing location) base name v →
      yields casing (cloudOf casing location) given (name, v) = true) :
    (merged casing (cloudOf casing location) user given).get name = some value :=
  (merged_cases huser hgiven name value).mpr (.inr ⟨hsets, hyields⟩)

theorem merged_isSome (hsets : Sets casing (cloudOf casing location) vended name value) :
    (merged casing (cloudOf casing location) user given).get name ≠ none := by
  by_cases hyields : ∀ v, Sets casing (cloudOf casing location) base name v →
      yields casing (cloudOf casing location) given (name, v) = true
  · rw [merged_vended huser hgiven hsets hyields]
    exact Option.some_ne_none value
  · push Not at hyields
    obtain ⟨v, hv, hstays⟩ := hyields
    rw [(merged_cases huser hgiven name v).mpr (.inl ⟨hv, hstays⟩)]
    exact Option.some_ne_none v

/-- Where a setting of the merged layers comes from: the caller's options, the vended ones, the
environment, or the endpoint of the region. -/
theorem layered_origin (h : (layered casing vended location environment
      (merged casing (cloudOf casing location) user given)).get name = some value) :
    (Sets casing (cloudOf casing location) base name value ∧
        ¬ yields casing (cloudOf casing location) given (name, value) = true) ∨
      Sets casing (cloudOf casing location) vended name value ∨
      (added casing vended location environment
        (merged casing (cloudOf casing location) user given)).get name = some value ∨
      (name = endpoint ∧ cloudOf casing location = some .s3 ∧ ∃ r,
        (layered casing vended location environment
          (merged casing (cloudOf casing location) user given)).get region = some r ∧
        value = regionalEndpoint casing r) := by
  rcases layered_cases h with hget | hadded | hpinned
  · rcases (merged_cases huser hgiven _ _).mp hget with hbase | ⟨hsets, -⟩
    · exact .inl hbase
    · exact .inr (.inl hsets)
  · exact .inr (.inr (.inl hadded))
  · exact .inr (.inr (.inr hpinned))

/-- The layers over a merge of what the caller gave stay unmixed. -/
theorem layered_unmixed : Unmixed casing base vended location environment
    (layered casing vended location environment
      (merged casing (cloudOf casing location) user given)) where
  once := by
    have hnodup : ((layered casing vended location environment
        (merged casing (cloudOf casing location) user given)).map Prod.fst).Nodup :=
      layered_nodup (merged_nodup huser.nodup hgiven.nodup)
    have hnames : ∀ e ∈ layered casing vended location environment
        (merged casing (cloudOf casing location) user given),
        canonicalKey casing e.1 (cloudOf casing location) = e.1 := by
      intro e he
      rcases layered_origin huser hgiven (Dict.get_of_mem hnodup he) with
        ⟨⟨key, -, hkey⟩, -⟩ | ⟨key, -, hkey⟩ | hadded | ⟨hname, hcloud, -⟩
      · rw [← hkey, canonicalKey_idempotent]
      · rw [← hkey, canonicalKey_idempotent]
      · obtain ⟨-, hcloud, -, key, -, -, hkey⟩ := added_sound hadded
        rw [hcloud, ← hkey, canonicalKey_idempotent]
      · rw [hname, hcloud, canonicalKey_endpoint]
    rwa [List.map_congr_left hnames]
  vendedCredentials hvends name hname value := by
    have hyields : ∀ other ∈ credentialKeys (cloudOf casing location), ∀ v,
        yields casing (cloudOf casing location) given (other, v) = true :=
      fun other hother v => hgiven.yields_iff.mpr (.inl ⟨hvends, hother⟩)
    constructor
    · intro h
      rcases layered_origin huser hgiven h with ⟨-, hstays⟩ | hsets | hadded | ⟨hendpoint, -⟩
      · exact absurd (hyields name hname value) hstays
      · exact hsets
      · obtain ⟨other, hother, v, hv⟩ := hvends
        exact (added_not_credential hname hother
          (merged_isSome huser hgiven hv) hadded).elim
      · exact absurd hendpoint (credential_ne hname (by decide))
    · intro hsets
      exact layered_of_merged (merged_vended huser hgiven hsets fun v _ => hyields name hname v)
        fun hendpoint => credential_ne hname (by decide) hendpoint.1
  ownCredentials hnot hvends name hname value := by
    have hstays : ∀ other ∈ credentialKeys (cloudOf casing location), ∀ v,
        Sets casing (cloudOf casing location) base other v →
        (merged casing (cloudOf casing location) user given).get other = some v := by
      intro other hother v hv
      apply (merged_cases huser hgiven other v).mpr
      refine .inl ⟨hv, fun hyields => ?_⟩
      rcases hgiven.yields_iff.mp hyields with ⟨hvended, -⟩ | ⟨-, hunit⟩ | ⟨-, hvended, -⟩
      · exact hnot hvended
      · exact credential_not_unit _ other hother hunit
      · exact hnot hvended
    constructor
    · intro h
      rcases layered_origin huser hgiven h with ⟨hsets, -⟩ | hsets | hadded | ⟨hendpoint, -⟩
      · exact hsets
      · exact absurd ⟨name, hname, value, hsets⟩ hnot
      · obtain ⟨other, hother, v, hv⟩ := hvends
        have hmerged := hstays other hother v hv
        exact (added_not_credential hname hother
          (by rw [hmerged]; exact Option.some_ne_none v) hadded).elim
      · exact absurd hendpoint (credential_ne hname (by decide))
    · intro hsets
      exact layered_of_merged (hstays name hname value hsets)
        fun hendpoint => credential_ne hname (by decide) hendpoint.1
  otherCredentials hnot hnot' name hname value h := by
    rcases layered_origin huser hgiven h with ⟨hsets, -⟩ | hsets | hadded | ⟨hendpoint, -⟩
    · exact absurd ⟨name, hname, value, hsets⟩ hnot'
    · exact absurd ⟨name, hname, value, hsets⟩ hnot
    · exact (added_sound hadded).2.2.2
    · exact absurd hendpoint (credential_ne hname (by decide))
  apart hvends name hname value h := by
    rcases layered_origin huser hgiven h with
      ⟨hsets, -⟩ | hsets | hadded | ⟨hendpoint, -, hregional⟩
    · exact .inr (.inl hsets)
    · exact .inl hsets
    · exact absurd ⟨hvends, hname⟩ (added_sound hadded).1
    · exact .inr (.inr ⟨hendpoint, hregional⟩)
  inPartition value h := by
    rintro ⟨hvends, r, hr, hne, hpartition⟩
    rcases layered_origin huser hgiven h with ⟨-, hstays⟩ | hsets | hadded | ⟨hendpoint, -⟩
    · exact hstays (hgiven.yields_iff.mpr (.inr (.inr ⟨rfl, hvends, r, hr, hne, hpartition⟩)))
    · exact hgiven.consistent ⟨region, value, r, hsets, hr, fun heq => hpartition (by rw [heq])⟩
    · exact merged_isSome huser hgiven hr (admits_iff.mp (added_sound hadded).2.2.1).2.1
    · exact absurd hendpoint (by decide)
  endpointUnit hvends name hname value := by
    have hyields : ∀ other ∈ s3EndpointUnit, ∀ v,
        yields casing (cloudOf casing location) given (other, v) = true :=
      fun other hother v => hgiven.yields_iff.mpr (.inr (.inl ⟨hvends, hother⟩))
    obtain ⟨hcloud, e, he, hne⟩ := hvends
    have hlayered : ∀ other ∈ s3EndpointUnit, ∀ v,
        Sets casing (cloudOf casing location) vended other v →
        (layered casing vended location environment
          (merged casing (cloudOf casing location) user given)).get other = some v := by
      intro other hother v hv
      refine layered_of_merged (merged_vended huser hgiven hv fun w _ => hyields other hother w) ?_
      rintro ⟨rfl, rfl⟩
      exact hgiven.consistent ⟨endpoint, [], e, hv, he, hne.symm⟩
    refine ⟨hlayered name hname value, fun h => ?_⟩
    rcases layered_origin huser hgiven h with ⟨-, hstays⟩ | hsets | hadded | ⟨rfl, -⟩
    · exact absurd (hyields name hname value) hstays
    · exact .inl hsets
    · obtain ⟨-, -, hadmits, hsets⟩ := added_sound hadded
      refine .inr ⟨?_, hsets⟩
      rintro rfl
      exact merged_isSome huser hgiven he (admits_iff.mp hadmits).2.1
    · rw [hlayered endpoint hname e he] at h
      rw [← Option.some.inj h]
      exact .inl he
  wins name value hsets hcredential hunit hpartition hempty := by
    refine layered_of_merged ((merged_cases huser hgiven name value).mpr (.inl ⟨hsets, ?_⟩)) hempty
    intro hyields
    rcases hgiven.yields_iff.mp hyields with h | h | h
    · exact hcredential h
    · exact hunit h
    · exact hpartition h

end

end DeltaSwamp.Storage
