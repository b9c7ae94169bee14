import DeltaSwamp.Storage.Unmixed

/-!
# Spelling and order

Inputs that differ only in how their keys are spelled and ordered.
-/

namespace DeltaSwamp.Storage

open List

variable (casing : Casing)

/-- The same settings, spelled or ordered differently. -/
def Respelled (cloud : Option Cloud) (a b : Options) : Prop :=
  ∀ name value, Sets casing cloud a name value ↔ Sets casing cloud b name value

def RespelledEnvironment (a b : Options) : Prop :=
  ∀ name value, SetsInEnvironment casing a name value ↔ SetsInEnvironment casing b name value

/-- No setting has two values in the environment. -/
def OneValue (environment : Options) : Prop :=
  ∀ name v w, SetsInEnvironment casing environment name v →
    SetsInEnvironment casing environment name w → v = w

/-- A vended credential has a key under its canonical name, in any case. -/
def Named (cloud : Option Cloud) (vended : Options) : Prop :=
  Vends casing cloud vended → vendsByName casing vended = true

/-- The same answer: both refused, or the same settings. -/
def Agree : Except SetTwice Options → Except SetTwice Options → Prop
  | .ok a, .ok b => Dict.Same a b
  | .error _, .error _ => True
  | _, _ => False

variable {casing} {cloud : Option Cloud} {location : Text}
  {base base' vended vended' user user' given given' environment environment' : Options}
  {options options' : Options}

theorem same_of_iff {a b : Options}
    (h : ∀ name value, a.get name = some value ↔ b.get name = some value) : Dict.Same a b :=
  fun name => Option.ext fun value => h name value

theorem Respelled.vends (h : Respelled casing cloud vended vended') :
    Vends casing cloud vended ↔ Vends casing cloud vended' := by
  unfold Vends
  simp only [h _ _]

theorem Respelled.contradicts (h : Respelled casing cloud base base') :
    Contradicts casing cloud base ↔ Contradicts casing cloud base' := by
  unfold Contradicts
  simp only [h _ _]

theorem Respelled.yields (h : Respelled casing cloud vended vended')
    (hgiven : Canonical casing cloud vended given) (hgiven' : Canonical casing cloud vended' given')
    (name value : Text) : yields casing cloud given (name, value) = true ↔
      yields casing cloud given' (name, value) = true := by
  rw [hgiven.yields_iff, hgiven'.yields_iff, h.vends]
  unfold VendsEndpoint OtherPartition
  simp only [h _ _, h.vends]

theorem merged_same (hbase : Respelled casing cloud base base')
    (hvended : Respelled casing cloud vended vended')
    (huser : Canonical casing cloud base user) (huser' : Canonical casing cloud base' user')
    (hgiven : Canonical casing cloud vended given)
    (hgiven' : Canonical casing cloud vended' given') :
    Dict.Same (merged casing cloud user given) (merged casing cloud user' given') := by
  apply same_of_iff
  intro name value
  rw [merged_cases huser hgiven, merged_cases huser' hgiven']
  simp only [hbase _ _, hvended _ _, hvended.yields hgiven hgiven']

theorem vendsCredential_congr (h : Dict.Same options options') :
    vendsCredential cloud options = true ↔ vendsCredential cloud options' = true := by
  have hget : ∀ d : Options, vendsCredential cloud d = true ↔
      ∃ name ∈ credentialKeys cloud, d.get name ≠ none := by
    intro d
    simp only [vendsCredential, any_eq_true, decide_eq_true_eq]
    constructor
    · rintro ⟨e, he, hname⟩
      refine ⟨e.1, hname, fun hnone => ?_⟩
      exact Dict.get_eq_none_iff.mp hnone (mem_map_of_mem he)
    · rintro ⟨name, hname, hthere⟩
      obtain ⟨v, hv⟩ := Option.ne_none_iff_exists'.mp hthere
      exact ⟨(name, v), Dict.mem_of_get hv, hname⟩
  rw [hget, hget]
  simp only [h _]

theorem admits_congr (h : Dict.Same options options') (name : Text) :
    admits options name = true ↔ admits options' name = true := by
  rw [admits_iff, admits_iff, vendsCredential_congr h, h name]

theorem added_iff (hone : OneValue casing environment) (name value : Text) :
    (added casing vended location environment options).get name = some value ↔
      ¬ (vendsByName casing vended = true ∧ name ∈ [endpoint, style]) ∧
      cloudOf casing location = some .s3 ∧ admits options name = true ∧
      SetsInEnvironment casing environment name value := by
  constructor
  · exact added_sound
  · rintro ⟨hleft, hcloud, hadmits, hsets⟩
    rw [added, environmentLeft_get, if_neg hleft]
    obtain ⟨v, hv⟩ := Option.isSome_iff_exists.mp
      (environmentOptions_complete hcloud hadmits hsets)
    rw [hv, hone name v value (environmentOptions_sound hv).2.2 hsets]

theorem vends_of_vendsByName (h : vendsByName casing vended = true) :
    Vends casing (some .s3) vended := by
  obtain ⟨⟨key, value⟩, hmem, hkey⟩ := any_eq_true.mp h
  have hname : casing.lower key ∈ credentialKeys (some .s3) := of_decide_eq_true hkey
  have hknown : ∀ name ∈ credentialKeys (some .s3), name ∈ (aliasesOf .s3).map Prod.fst := by
    decide +kernel
  obtain ⟨-, hown, hself⟩ := (names_canonical .s3).1 _ (hknown _ hname)
  exact ⟨casing.lower key, hname, value, key, hmem, canonicalKey_alias casing hown hself⟩

theorem vendsByName_congr (hnamed : Named casing (some .s3) vended)
    (hnamed' : Named casing (some .s3) vended')
    (hvended : Respelled casing (some .s3) vended vended') :
    vendsByName casing vended = true ↔ vendsByName casing vended' = true := by
  constructor
  · intro h
    exact hnamed' (hvended.vends.mp (vends_of_vendsByName h))
  · intro h
    exact hnamed (hvended.vends.mpr (vends_of_vendsByName h))

variable (casing location) in
theorem pinS3Endpoint_congr (h : Dict.Same options options') (pinned : Bool) :
    Dict.Same (pinS3Endpoint casing options location pinned)
      (pinS3Endpoint casing options' location pinned) := by
  intro name
  unfold pinS3Endpoint
  rw [h region, h accessKeyId, h endpoint]
  split_ifs with hcloud
  · cases options'.get region with
    | none => exact h name
    | some r =>
      simp only []
      split_ifs
      · exact h name
      · rw [Dict.get_set, Dict.get_set, h name]
      · exact h name
  · exact h name

theorem Respelled.ne_nil (h : Respelled casing cloud vended vended') (hne : vended ≠ []) :
    vended' ≠ [] := by
  rintro rfl
  obtain ⟨e, he⟩ := exists_mem_of_ne_nil vended hne
  obtain ⟨key, hmem, -⟩ := (h (canonicalKey casing e.1 cloud) e.2).mp ⟨e.1, he, rfl⟩
  cases hmem

theorem Respelled.symm (h : Respelled casing cloud vended vended') :
    Respelled casing cloud vended' vended := fun name value => (h name value).symm

theorem layered_same (hsame : Dict.Same options options')
    (hvended : Respelled casing (cloudOf casing location) vended vended')
    (hnamed : Named casing (cloudOf casing location) vended)
    (hnamed' : Named casing (cloudOf casing location) vended')
    (henvironment : RespelledEnvironment casing environment environment')
    (hone : OneValue casing environment) :
    Dict.Same (layered casing vended location environment options)
      (layered casing vended' location environment' options') := by
  have hone' : OneValue casing environment' := fun name v w hv hw =>
    hone name v w ((henvironment name v).mpr hv) ((henvironment name w).mpr hw)
  have hadded : Dict.Same (added casing vended location environment options)
      (added casing vended' location environment' options') := by
    apply same_of_iff
    intro name value
    rw [added_iff hone, added_iff hone', admits_congr hsame, henvironment name value]
    by_cases hcloud : cloudOf casing location = some .s3
    · rw [hcloud] at hvended hnamed hnamed'
      rw [vendsByName_congr hnamed hnamed' hvended]
    · simp only [hcloud, false_and, and_false]
  have hboth : Dict.Same (options.update (added casing vended location environment options))
      (options'.update (added casing vended' location environment' options')) := by
    intro name
    rw [update_added_get, update_added_get, hsame name, hadded name]
  have hempty : (vended ≠ []) = (vended' ≠ []) :=
    propext ⟨hvended.ne_nil, hvended.symm.ne_nil⟩
  have hpinned : decide (vended ≠ []) = decide (vended' ≠ []) := by
    simp only [hempty]
  intro name
  have hpin := pinS3Endpoint_congr casing location hboth (decide (vended ≠ [])) name
  rw [layered, layered, ← hpinned]
  exact hpin

theorem engineOptions_ok
    (h : engineOptions casing base vended location environment = .ok options) :
    ∃ user given, Canonical casing (cloudOf casing location) base user ∧
      Canonical casing (cloudOf casing location) vended given ∧
      options = layered casing vended location environment
        (merged casing (cloudOf casing location) user given) := by
  obtain ⟨out, hout, hlayered⟩ := Result.bind_eq_ok_iff.mp h
  obtain ⟨user, huser, hrest⟩ := Result.bind_eq_ok_iff.mp hout
  obtain ⟨given, hgiven, hmerged⟩ := Result.bind_eq_ok_iff.mp hrest
  refine ⟨user, given, canonicalOptions_ok huser, canonicalOptions_ok hgiven, ?_⟩
  rw [Result.pure_eq_ok_iff] at hmerged hlayered
  rw [hmerged, hlayered]

theorem engineOptions_error_iff (casing : Casing) (base vended : Options) (location : Text)
    (environment : Options) :
    (∃ e, engineOptions casing base vended location environment = .error e) ↔
      Contradicts casing (cloudOf casing location) base ∨
      Contradicts casing (cloudOf casing location) vended := by
  have hbase : (∃ e, canonicalOptions casing "storage_options".toList (cloudOf casing location)
      base = .error e) ↔ _ := canonicalOptions_error_iff
  have hvended : (∃ e, canonicalOptions casing "the vended credential".toList
      (cloudOf casing location) vended = .error e) ↔ _ := canonicalOptions_error_iff
  rw [← hbase, ← hvended]
  constructor
  · rintro ⟨e, h⟩
    rcases Result.bind_eq_error_iff.mp h with hmerge | ⟨_, -, hpure⟩
    · rcases Result.bind_eq_error_iff.mp hmerge with huser | ⟨user, -, hrest⟩
      · exact .inl ⟨e, huser⟩
      · rcases Result.bind_eq_error_iff.mp hrest with hgiven | ⟨_, -, hpure⟩
        · exact .inr ⟨e, hgiven⟩
        · cases hpure
    · cases hpure
  · intro h
    cases huser : canonicalOptions casing "storage_options".toList (cloudOf casing location)
      base with
    | error e =>
      exact ⟨e, Result.bind_eq_error_iff.mpr (.inl (Result.bind_eq_error_iff.mpr (.inl huser)))⟩
    | ok user =>
      have hnot : ¬ ∃ e, canonicalOptions casing "storage_options".toList (cloudOf casing location)
          base = .error e := by
        rintro ⟨e, he⟩
        rw [huser] at he
        cases he
      obtain ⟨e, hgiven⟩ := h.resolve_left hnot
      have hmerge : mergeOptions casing base vended location = .error e :=
        Result.bind_eq_error_iff.mpr
          (.inr ⟨user, huser, Result.bind_eq_error_iff.mpr (.inl hgiven)⟩)
      exact ⟨e, Result.bind_eq_error_iff.mpr (.inl hmerge)⟩

theorem engineOptions_agree (hbase : Respelled casing (cloudOf casing location) base base')
    (hvended : Respelled casing (cloudOf casing location) vended vended')
    (henvironment : RespelledEnvironment casing environment environment')
    (hnamed : Named casing (cloudOf casing location) vended)
    (hnamed' : Named casing (cloudOf casing location) vended')
    (hone : OneValue casing environment) :
    Agree (engineOptions casing base vended location environment)
      (engineOptions casing base' vended' location environment') := by
  have herror : (∃ e, engineOptions casing base vended location environment = .error e) ↔
      ∃ e, engineOptions casing base' vended' location environment' = .error e := by
    rw [engineOptions_error_iff, engineOptions_error_iff, hbase.contradicts, hvended.contradicts]
  cases hfirst : engineOptions casing base vended location environment with
  | error e =>
    obtain ⟨e', he'⟩ := herror.mp ⟨e, hfirst⟩
    rw [he']
    trivial
  | ok options =>
    cases hsecond : engineOptions casing base' vended' location environment' with
    | error e' =>
      obtain ⟨e, he⟩ := herror.mpr ⟨e', hsecond⟩
      rw [hfirst] at he
      cases he
    | ok options' =>
      obtain ⟨user, given, huser, hgiven, rfl⟩ := engineOptions_ok hfirst
      obtain ⟨user', given', huser', hgiven', rfl⟩ := engineOptions_ok hsecond
      exact layered_same (merged_same hbase hvended huser huser' hgiven hgiven') hvended
        hnamed hnamed' henvironment hone

/-- `engine_options` refuses options that contradict themselves and otherwise gives those of one
principal; how the keys are spelled and ordered makes no difference, where a vended credential
is named and the environment gives no setting two values. -/
theorem engineOptions_unmixed (casing : Casing) (base vended : Options) (location : Text)
    (environment : Options) :
    ((∃ e, engineOptions casing base vended location environment = .error e) ↔
      Contradicts casing (cloudOf casing location) base ∨
      Contradicts casing (cloudOf casing location) vended) ∧
    (∀ options, engineOptions casing base vended location environment = .ok options →
      Unmixed casing base vended location environment options) ∧
    ∀ base' vended' environment', Respelled casing (cloudOf casing location) base base' →
      Respelled casing (cloudOf casing location) vended vended' →
      RespelledEnvironment casing environment environment' →
      Named casing (cloudOf casing location) vended →
      Named casing (cloudOf casing location) vended' → OneValue casing environment →
      Agree (engineOptions casing base vended location environment)
        (engineOptions casing base' vended' location environment') := by
  refine ⟨engineOptions_error_iff casing base vended location environment, ?_, ?_⟩
  · intro options h
    obtain ⟨user, given, huser, hgiven, rfl⟩ := engineOptions_ok h
    exact layered_unmixed huser hgiven
  · intro base' vended' environment' hbase hvended henvironment hnamed hnamed' hone
    exact engineOptions_agree hbase hvended henvironment hnamed hnamed' hone

def written (entries : List (String × String)) : Options :=
  entries.map fun e => (e.1.toList, e.2.toList)

/-- The settings of the options, under canonical names. -/
def settings (casing : Casing) (cloud : Option Cloud) (options : Options) : Options :=
  options.map fun e => (canonicalKey casing e.1 cloud, e.2)

theorem sets_iff_mem {name value : Text} : Sets casing cloud base name value ↔
    (name, value) ∈ settings casing cloud base := by
  simp only [Sets, settings, mem_map, Prod.exists, Prod.mk.injEq]
  constructor
  · rintro ⟨key, hmem, hkey⟩
    exact ⟨key, value, hmem, hkey, rfl⟩
  · rintro ⟨key, _, hmem, hkey, rfl⟩
    exact ⟨key, hmem, hkey⟩

theorem respelled_of_perm
    (h : (settings casing cloud base).Perm (settings casing cloud base')) :
    Respelled casing cloud base base' := by
  intro name value
  rw [sets_iff_mem, sets_iff_mem]
  exact h.mem_iff

theorem setsInEnvironment_iff {name value : Text} :
    SetsInEnvironment casing environment name value ↔
      (name, value) ∈ settings casing (some .s3) (environment.filter (isStandard casing)) := by
  rw [← sets_iff_mem]
  simp only [SetsInEnvironment, Sets, mem_filter, and_assoc]

theorem respelledEnvironment_of_perm
    (h : (settings casing (some .s3) (environment.filter (isStandard casing))).Perm
      (settings casing (some .s3) (environment'.filter (isStandard casing)))) :
    RespelledEnvironment casing environment environment' := by
  intro name value
  rw [setsInEnvironment_iff, setsInEnvironment_iff]
  exact h.mem_iff

def bucket : Text := "s3://bucket/table".toList

def chinaKeys : Options :=
  written [("aws_access_key_id", "A"), ("token", "T"), ("region", "cn-north-1")]

def chinaKeys' : Options :=
  written [("AWS_REGION", "cn-north-1"), ("AWS_ACCESS_KEY_ID", "A"), ("aws_token", "T")]

theorem engineOptions_unmixed_respelled :
    Agree
      (engineOptions asciiCasing (written [("Region", "us-east-1")]) chinaKeys bucket
        (written [("AWS_ENDPOINT_URL", "https://minio")]))
      (engineOptions asciiCasing (written [("AWS_REGION", "us-east-1")]) chinaKeys' bucket
        (written [("aws_endpoint", "https://minio")])) := by
  have hfacts : cloudOf asciiCasing bucket = some .s3 ∧
      (settings asciiCasing (some .s3) (written [("Region", "us-east-1")])).Perm
        (settings asciiCasing (some .s3) (written [("AWS_REGION", "us-east-1")])) ∧
      (settings asciiCasing (some .s3) chinaKeys).Perm
        (settings asciiCasing (some .s3) chinaKeys') ∧
      (settings asciiCasing (some .s3)
        ((written [("AWS_ENDPOINT_URL", "https://minio")]).filter (isStandard asciiCasing))).Perm
        (settings asciiCasing (some .s3)
          ((written [("aws_endpoint", "https://minio")]).filter (isStandard asciiCasing))) ∧
      vendsByName asciiCasing chinaKeys = true ∧ vendsByName asciiCasing chinaKeys' = true ∧
      settings asciiCasing (some .s3)
        ((written [("AWS_ENDPOINT_URL", "https://minio")]).filter (isStandard asciiCasing)) =
        [(endpoint, "https://minio".toList)] := by
    decide +kernel
  obtain ⟨hcloud, hbase, hvended, henvironment, hnamed, hnamed', hone⟩ := hfacts
  refine (engineOptions_unmixed asciiCasing _ _ _ _).2.2 _ _ _ ?_ ?_
    (respelledEnvironment_of_perm henvironment) (fun _ => hnamed) (fun _ => hnamed') ?_
  · rw [hcloud]
    exact respelled_of_perm hbase
  · rw [hcloud]
    exact respelled_of_perm hvended
  · intro name v w hv hw
    rw [setsInEnvironment_iff, hone, mem_singleton, Prod.mk.injEq] at hv hw
    rw [hv.2, hw.2]

/-- Two spellings in the environment with two values: the first in order wins. An endpoint
that is the empty text is pinned over. And a vended credential under aliases alone is not seen
beside an endpoint of the environment. -/
theorem engineOptions_mixed :
    (∃ environment environment', RespelledEnvironment asciiCasing environment environment' ∧
      ¬ Agree (engineOptions asciiCasing [] [] bucket environment)
        (engineOptions asciiCasing [] [] bucket environment')) ∧
    (∃ options, engineOptions asciiCasing (written [("aws_endpoint", "")])
        (written [("aws_access_key_id", "A"), ("aws_region", "us-east-1")]) bucket [] =
          .ok options ∧
      options.get endpoint = some "https://s3.us-east-1.amazonaws.com".toList) ∧
    ∃ options, engineOptions asciiCasing [] (written [("access_key_id", "A")]) bucket
        (written [("AWS_ENDPOINT_URL", "https://minio")]) = .ok options ∧
      Vends asciiCasing (some .s3) (written [("access_key_id", "A")]) ∧
      options.get endpoint = some "https://minio".toList := by
  have hfacts :
      (settings asciiCasing (some .s3)
        ((written [("AWS_REGION", "a"), ("aws_region", "b")]).filter (isStandard asciiCasing))).Perm
        (settings asciiCasing (some .s3)
          ((written [("AWS_REGION", "b"), ("aws_region", "a")]).filter (isStandard asciiCasing))) ∧
      engineOptions asciiCasing [] [] bucket (written [("AWS_REGION", "a"), ("aws_region", "b")]) =
        .ok [(region, ['a'])] ∧
      engineOptions asciiCasing [] [] bucket (written [("AWS_REGION", "b"), ("aws_region", "a")]) =
        .ok [(region, ['b'])] ∧
      engineOptions asciiCasing (written [("aws_endpoint", "")])
        (written [("aws_access_key_id", "A"), ("aws_region", "us-east-1")]) bucket [] =
        .ok [(accessKeyId, ['A']), (region, "us-east-1".toList),
          (endpoint, "https://s3.us-east-1.amazonaws.com".toList)] ∧
      engineOptions asciiCasing [] (written [("access_key_id", "A")]) bucket
        (written [("AWS_ENDPOINT_URL", "https://minio")]) =
        .ok [(accessKeyId, ['A']), (endpoint, "https://minio".toList)] ∧
      canonicalKey asciiCasing "access_key_id".toList (some .s3) = accessKeyId ∧
      accessKeyId ∈ credentialKeys (some .s3) ∧ endpoint ≠ accessKeyId ∧ endpoint ≠ region := by
    decide +kernel
  obtain ⟨hperm, hfirst, hsecond, hpinned, hleft, hkey, hcredential, hne, hne'⟩ := hfacts
  refine ⟨⟨_, _, respelledEnvironment_of_perm hperm, ?_⟩, ⟨_, hpinned, ?_⟩, _, hleft, ?_, ?_⟩
  · intro h
    rw [hfirst, hsecond] at h
    have hregion := h region
    simp [Dict.get] at hregion
  · simp [Dict.get, hne, hne']
  · exact ⟨accessKeyId, hcredential, ['A'], "access_key_id".toList, mem_singleton.mpr rfl, hkey⟩
  · simp [Dict.get, hne]

end DeltaSwamp.Storage
