import DeltaSwamp.Dict
import DeltaSwamp.Result
import DeltaSwamp.Text

/-!
# Merging a caller's options with vended ones

`canonical_options`, which refuses a setting spelled twice with two values, and
`merge_options`.

An object store accepts each setting under several aliases, in any case;
`canonicalKey` is the one name every layer of options is merged under.
-/

namespace DeltaSwamp.Storage

open List

/-- `str.lower` and `str.upper`; only what they do to ASCII text matters here. -/
structure Casing where
  lower : Text → Text
  upper : Text → Text
  lower_ascii : ∀ t : Text, (∀ c ∈ t, c.toNat < 128) → lower t = t.map Char.toLower
  upper_ascii : ∀ t : Text, (∀ c ∈ t, c.toNat < 128) → upper t = t.map Char.toUpper

/-- Casing that leaves all but ASCII letters alone. -/
def asciiCasing : Casing where
  lower t := t.map Char.toLower
  upper t := t.map Char.toUpper
  lower_ascii _ _ := rfl
  upper_ascii _ _ := rfl

inductive Cloud where
  | s3 | azure | gcs
  deriving DecidableEq

/-- A canonical name with its aliases. -/
def spellings (canonical : String) (names : List String) : Text × List Text :=
  (canonical.toList, names.map String.toList)

def s3Aliases : List (Text × List Text) := [
  spellings "aws_access_key_id" ["access_key_id"],
  spellings "aws_secret_access_key" ["secret_access_key"],
  spellings "aws_session_token" ["aws_token", "session_token", "token"],
  spellings "aws_region" ["region"],
  spellings "aws_default_region" ["default_region"],
  spellings "aws_bucket" ["aws_bucket_name", "bucket_name", "bucket"],
  spellings "aws_endpoint" ["aws_endpoint_url", "endpoint_url", "endpoint"],
  spellings "aws_virtual_hosted_style_request" ["virtual_hosted_style_request"],
  spellings "aws_s3_express" ["s3_express"],
  spellings "aws_imdsv1_fallback" ["imdsv1_fallback"],
  spellings "aws_metadata_endpoint" ["metadata_endpoint"],
  spellings "aws_unsigned_payload" ["unsigned_payload"],
  spellings "aws_checksum_algorithm" ["checksum_algorithm"],
  spellings "aws_role_arn" ["role_arn"],
  spellings "aws_role_session_name" ["role_session_name"],
  spellings "aws_web_identity_token_file" ["web_identity_token_file"],
  spellings "aws_endpoint_url_sts" ["endpoint_url_sts"],
  spellings "aws_skip_signature" ["skip_signature"],
  spellings "aws_copy_if_not_exists" ["copy_if_not_exists"],
  spellings "aws_conditional_put" ["conditional_put"],
  spellings "aws_disable_tagging" ["disable_tagging"],
  spellings "aws_request_payer" ["request_payer"],
  spellings "aws_server_side_encryption" ["server_side_encryption"],
  spellings "aws_sse_kms_key_id" ["sse_kms_key_id"],
  spellings "aws_sse_bucket_key_enabled" ["sse_bucket_key_enabled"],
  spellings "allow_http" ["aws_allow_http"]]

def azureAliases : List (Text × List Text) := [
  spellings "azure_storage_account_key"
    ["azure_storage_access_key", "azure_storage_master_key", "master_key", "account_key",
     "access_key"],
  spellings "azure_storage_account_name" ["account_name"],
  spellings "azure_storage_client_id" ["azure_client_id", "client_id"],
  spellings "azure_storage_client_secret" ["azure_client_secret", "client_secret"],
  spellings "azure_storage_tenant_id"
    ["azure_storage_authority_id", "azure_tenant_id", "azure_authority_id", "tenant_id",
     "authority_id"],
  spellings "azure_storage_sas_key" ["azure_storage_sas_token", "sas_key", "sas_token"],
  spellings "azure_storage_token" ["bearer_token", "token"],
  spellings "azure_storage_use_emulator" ["use_emulator"],
  spellings "azure_storage_endpoint" ["azure_endpoint", "endpoint"],
  spellings "azure_msi_endpoint" ["azure_identity_endpoint", "identity_endpoint", "msi_endpoint"],
  spellings "azure_federated_token_file" ["federated_token_file"],
  spellings "azure_use_azure_cli" ["use_azure_cli"],
  spellings "azure_skip_signature" ["skip_signature"],
  spellings "azure_container_name" ["container_name"],
  spellings "azure_disable_tagging" ["disable_tagging"],
  spellings "azure_use_fabric_endpoint" ["use_fabric_endpoint"],
  spellings "allow_http" ["azure_allow_http"]]

def gcsAliases : List (Text × List Text) := [
  spellings "google_service_account"
    ["service_account", "google_service_account_path", "service_account_path"],
  spellings "google_service_account_key" ["service_account_key"],
  spellings "google_application_credentials" ["application_credentials"],
  spellings "google_bucket" ["google_bucket_name", "bucket", "bucket_name"],
  spellings "google_base_url" ["base_url"],
  spellings "google_skip_signature" ["skip_signature"],
  spellings "google_bearer_token" ["gcp_oauth_token", "bearer_token"]]

/-- The client settings of every cloud. -/
def clientKeys : List Text := [
  "allow_http", "allow_invalid_certificates", "connect_timeout", "default_content_type",
  "http1_only", "http2_only", "http2_keep_alive_interval", "http2_keep_alive_timeout",
  "http2_keep_alive_while_idle", "http2_max_frame_size", "pool_idle_timeout",
  "pool_max_idle_per_host", "proxy_url", "proxy_ca_certificate", "proxy_excludes",
  "randomize_addresses", "timeout", "user_agent"].map String.toList

/-- The keys that authenticate. -/
def credentialKeys : Option Cloud → List Text
  | some .s3 =>
    ["aws_access_key_id", "aws_secret_access_key", "aws_session_token", "aws_role_arn",
     "aws_role_session_name", "aws_web_identity_token_file", "aws_skip_signature"].map String.toList
  | some .azure =>
    ["azure_storage_account_key", "azure_storage_client_id", "azure_storage_client_secret",
     "azure_storage_tenant_id", "azure_storage_sas_key", "azure_storage_token",
     "azure_federated_token_file", "azure_use_azure_cli", "azure_skip_signature"].map String.toList
  | some .gcs =>
    ["google_service_account", "google_service_account_key", "google_application_credentials",
     "google_bearer_token", "google_skip_signature"].map String.toList
  | none => []

def optOutProbe : Text := "deltaswamp_skip_put_if_absent_probe".toList

/-- The settings that are the library's own, sent to no store. -/
def ownKeys : List Text := [optOutProbe]

def clientPrefix : Cloud → Text
  | .s3 => "aws_".toList
  | .azure => "azure_".toList
  | .gcs => "google_".toList

/-- `_alias_table`. -/
def aliasTable (aliases : List (Text × List Text)) : Dict Text Text :=
  let table := Dict.update [] (aliases.map fun a => (a.1, a.1))
  aliases.foldl (fun table a => table.update (a.2.map fun name => (name, a.1))) table

def aliasesOf : Cloud → List (Text × List Text)
  | .s3 => s3Aliases
  | .azure => azureAliases
  | .gcs => gcsAliases

def aliases (cloud : Cloud) : Dict Text Text := aliasTable (aliasesOf cloud)

def region : Text := "aws_region".toList

def endpoint : Text := "aws_endpoint".toList

def style : Text := "aws_virtual_hosted_style_request".toList

def accessKeyId : Text := "aws_access_key_id".toList

/-- With a vended S3 endpoint, the settings that belong to it. -/
def s3EndpointUnit : List Text := [endpoint, region, style]

/-- The text before the first occurrence of `needle`. -/
def before (needle : Text) : Text → Option Text
  | [] => if needle = [] then some [] else none
  | c :: rest =>
    if needle.isPrefixOf (c :: rest) then some []
    else (before needle rest).map (c :: ·)

def s3Schemes : List Text := ["s3", "s3a", "s3n", "r2"].map String.toList

def azureSchemes : List Text :=
  ["az", "abfs", "abfss", "adl", "azure", "wasb", "wasbs"].map String.toList

def gcsSchemes : List Text := ["gs", "gcs"].map String.toList

section
variable (casing : Casing)

def scheme (location : Text) : Text :=
  match before "://".toList location with
  | some text => casing.lower text
  | none => []

/-- `cloud_of`. -/
def cloudOf (location : Text) : Option Cloud :=
  if scheme casing location ∈ s3Schemes then some .s3
  else if scheme casing location ∈ azureSchemes then some .azure
  else if scheme casing location ∈ gcsSchemes then some .gcs
  else none

/-- `lowered[len(prefix):] if lowered.startswith(prefix) else lowered`. -/
def withoutPrefix (start text : Text) : Text :=
  if start.isPrefixOf text then text.drop start.length else text

/-- `canonical_key`: unknown keys are left as written. -/
def canonicalKey (key : Text) (cloud : Option Cloud) : Text :=
  if casing.lower key ∈ ownKeys then casing.lower key
  else
    match cloud with
    | none => key
    | some cloud =>
      match (aliases cloud).get (casing.lower key) with
      | some known => known
      | none =>
        let bare := withoutPrefix (clientPrefix cloud) (casing.lower key)
        if bare ∈ clientKeys then bare else key

/-- A name in lower-case ASCII. -/
def Plain (name : Text) : Prop := ∀ c ∈ name, c.toNat < 128 ∧ c.toLower = c

instance (name : Text) : Decidable (Plain name) := inferInstanceAs (Decidable (∀ c ∈ name, _))

variable {casing} in
theorem Plain.lower {name : Text} (h : Plain name) : casing.lower name = name := by
  rw [casing.lower_ascii name fun c hc => (h c hc).1]
  conv_rhs => rw [← map_id name]
  exact map_congr_left fun c hc => (h c hc).2

theorem aliasTable_canonical {names : List (Text × List Text)} {e : Text × Text}
    (h : e ∈ aliasTable names) : e.2 ∈ names.map Prod.fst := by
  have hloop : ∀ (rest : List (Text × List Text)) (table : Dict Text Text),
      (∀ a ∈ rest, a ∈ names) → (∀ e ∈ table, e.2 ∈ names.map Prod.fst) →
      ∀ e ∈ rest.foldl (fun table a => table.update (a.2.map fun name => (name, a.1))) table,
        e.2 ∈ names.map Prod.fst := by
    intro rest
    induction rest with
    | nil => exact fun _ _ htable => htable
    | cons a rest ih =>
      intro table hrest htable
      apply ih _ fun b hb => hrest b (mem_cons_of_mem _ hb)
      intro e he
      rcases Dict.mem_update he with he | he
      · obtain ⟨name, -, rfl⟩ := mem_map.mp he
        exact mem_map_of_mem (hrest a mem_cons_self)
      · exact htable e he
  apply hloop names _ (fun _ ha => ha) _ e h
  intro e he
  rcases Dict.mem_update he with he | he
  · obtain ⟨a, ha, rfl⟩ := mem_map.mp he
    exact mem_map_of_mem ha
  · cases he

theorem names_canonical (cloud : Cloud) :
    (∀ name ∈ (aliasesOf cloud).map Prod.fst,
      Plain name ∧ name ∉ ownKeys ∧ (aliases cloud).get name = some name) ∧
    ∀ bare ∈ clientKeys, Plain bare ∧ bare ∉ ownKeys ∧
      withoutPrefix (clientPrefix cloud) bare = bare ∧
      ((aliases cloud).get bare).getD bare = bare := by
  cases cloud <;> decide +kernel

theorem aliases_canonical {cloud : Cloud} {e : Text × Text} (h : e ∈ aliases cloud) :
    Plain e.2 ∧ e.2 ∉ ownKeys ∧ (aliases cloud).get e.2 = some e.2 :=
  (names_canonical cloud).1 e.2 (aliasTable_canonical h)

variable {key : Text}

theorem canonicalKey_own {cloud : Option Cloud} (h : casing.lower key ∈ ownKeys) :
    canonicalKey casing key cloud = casing.lower key := by
  unfold canonicalKey
  exact if_pos h

theorem canonicalKey_none (hown : casing.lower key ∉ ownKeys) :
    canonicalKey casing key none = key := by
  unfold canonicalKey
  exact if_neg hown

theorem canonicalKey_alias {known : Text} {cloud : Cloud} (hown : casing.lower key ∉ ownKeys)
    (h : (aliases cloud).get (casing.lower key) = some known) :
    canonicalKey casing key (some cloud) = known := by
  unfold canonicalKey
  rw [if_neg hown]
  simp only [h]

theorem canonicalKey_client {cloud : Cloud} (hown : casing.lower key ∉ ownKeys)
    (h : (aliases cloud).get (casing.lower key) = none) :
    canonicalKey casing key (some cloud) =
      if withoutPrefix (clientPrefix cloud) (casing.lower key) ∈ clientKeys then
        withoutPrefix (clientPrefix cloud) (casing.lower key)
      else key := by
  unfold canonicalKey
  rw [if_neg hown]
  simp only [h]

theorem canonicalKey_idempotent (key : Text) (cloud : Option Cloud) :
    canonicalKey casing (canonicalKey casing key cloud) cloud = canonicalKey casing key cloud := by
  by_cases hown : casing.lower key ∈ ownKeys
  · have hplain : casing.lower (casing.lower key) = casing.lower key := by
      rw [mem_singleton.mp hown]
      exact Plain.lower (by decide)
    rw [canonicalKey_own casing hown]
    exact (canonicalKey_own casing (by rwa [hplain])).trans hplain
  cases cloud with
  | none => rw [canonicalKey_none casing hown, canonicalKey_none casing hown]
  | some cloud =>
    cases hknown : (aliases cloud).get (casing.lower key) with
    | some known =>
      obtain ⟨hplain, hnot, hself⟩ := aliases_canonical (Dict.mem_of_get hknown)
      rw [canonicalKey_alias casing hown hknown]
      apply canonicalKey_alias
      · rwa [hplain.lower]
      · rwa [hplain.lower]
    | none =>
      have hkey := canonicalKey_client casing hown hknown
      by_cases hbare : withoutPrefix (clientPrefix cloud) (casing.lower key) ∈ clientKeys
      · obtain ⟨hplain, hnot, hprefix, hself⟩ := (names_canonical cloud).2 _ hbare
        rw [if_pos hbare] at hkey
        rw [hkey]
        generalize withoutPrefix (clientPrefix cloud) (casing.lower key) = bare at *
        cases hbare' : (aliases cloud).get bare with
        | some known =>
          rw [hbare'] at hself
          exact (canonicalKey_alias casing (by rwa [hplain.lower])
            (by rwa [hplain.lower])).trans hself
        | none =>
          have hclient : canonicalKey casing bare (some cloud) = _ :=
            canonicalKey_client casing (by rwa [hplain.lower]) (by rwa [hplain.lower])
          rwa [hplain.lower, hprefix, if_pos hbare] at hclient
      · rw [if_neg hbare] at hkey
        rw [hkey, hkey]

end

abbrev Options := Dict Text Text

/-- The `InvalidArgumentError` of `canonical_options`. -/
structure SetTwice where
  what : Text
  name : Text
  first : Text
  second : Text
  deriving DecidableEq

/-- `repr` of a string is a parameter: how Python quotes it. -/
def SetTwice.message (repr : Text → Text) (e : SetTwice) : Text :=
  e.what ++ " sets ".toList ++ e.name ++ " twice, as ".toList ++ repr e.first ++
    " and ".toList ++ repr e.second ++
    (", with different values; object_store would apply one of them at random. " ++
      "Pass one.").toList

variable (casing : Casing)

/-- The loop of `canonical_options`: `out`, and how each of its names was first spelled. -/
def canonicalLoop (what : Text) (cloud : Option Cloud) (out spelled : Options) :
    Options → Except SetTwice Options
  | [] => .ok out
  | (key, value) :: rest =>
    let name := canonicalKey casing key cloud
    if (out.get name).any (· ≠ value) then
      .error ⟨what, name, (spelled.get name).getD [], key⟩
    else canonicalLoop what cloud (out.set name value) (spelled.fill [(name, key)]) rest

/-- `canonical_options`. -/
def canonicalOptions (what : Text) (cloud : Option Cloud) (options : Options) :
    Except SetTwice Options :=
  canonicalLoop casing what cloud [] [] options

def isSpace (c : Char) : Bool :=
  c.toNat ∈ [0x9, 0xA, 0xB, 0xC, 0xD, 0x1C, 0x1D, 0x1E, 0x1F, 0x20, 0x85, 0xA0, 0x1680, 0x2000,
    0x2001, 0x2002, 0x2003, 0x2004, 0x2005, 0x2006, 0x2007, 0x2008, 0x2009, 0x200A, 0x2028,
    0x2029, 0x202F, 0x205F, 0x3000]

/-- `str.strip`. -/
def strip (text : Text) : Text :=
  ((text.dropWhile isSpace).reverse.dropWhile isSpace).reverse

inductive Partition where
  | aws | china | government
  deriving DecidableEq

/-- `_partition`: the AWS partition of a region. -/
def partitionOf (region : Text) : Partition :=
  let region := casing.lower (strip region)
  if "cn-".toList.isPrefixOf region then .china
  else if "us-gov-".toList.isPrefixOf region then .government
  else .aws

/-- A setting that is there and not the empty text. -/
def truthy (value : Option Text) : Bool := value.any (· ≠ [])

def vendsCredential (cloud : Option Cloud) (given : Options) : Bool :=
  given.any fun e => e.1 ∈ credentialKeys cloud

/-- The caller's setting yields to what was vended. -/
def yields (cloud : Option Cloud) (given : Options) (e : Text × Text) : Bool :=
  (vendsCredential cloud given && decide (e.1 ∈ credentialKeys cloud)) ||
  ((decide (cloud = some .s3) && truthy (given.get endpoint)) && decide (e.1 ∈ s3EndpointUnit)) ||
  (decide (e.1 = region) && vendsCredential cloud given && truthy (given.get region) &&
    decide (partitionOf casing e.2 ≠ partitionOf casing ((given.get region).getD [])))

/-- The caller's options and the vended ones, each under canonical names, in one dictionary. -/
def merged (cloud : Option Cloud) (user given : Options) : Options :=
  if given = [] then user
  else user.foldl (fun out e => if yields casing cloud given e then out else out.set e.1 e.2) given

/-- `merge_options`. -/
def mergeOptions (base vended : Options) (location : Text) : Except SetTwice Options := do
  let cloud := cloudOf casing location
  let user ← canonicalOptions casing "storage_options".toList cloud base
  let given ← canonicalOptions casing "the vended credential".toList cloud vended
  return merged casing cloud user given

/-- The options give the setting this value, under any of its spellings. -/
def Sets (cloud : Option Cloud) (options : Options) (name value : Text) : Prop :=
  ∃ key, (key, value) ∈ options ∧ canonicalKey casing key cloud = name

/-- A setting given two values. -/
def Contradicts (cloud : Option Cloud) (options : Options) : Prop :=
  ∃ name v w, Sets casing cloud options name v ∧ Sets casing cloud options name w ∧ v ≠ w

/-- Canonical options: each setting once, under its canonical name. -/
structure Canonical (cloud : Option Cloud) (options out : Options) : Prop where
  nodup : (out.map Prod.fst).Nodup
  holds : ∀ name value, out.get name = some value ↔ Sets casing cloud options name value

variable {casing} {what : Text} {cloud : Option Cloud}

theorem sets_cons {key value : Text} {rest : Options} {name v : Text} :
    Sets casing cloud ((key, value) :: rest) name v ↔
      (canonicalKey casing key cloud = name ∧ v = value) ∨ Sets casing cloud rest name v := by
  simp only [Sets, mem_cons, Prod.mk.injEq]
  constructor
  · rintro ⟨k, ⟨rfl, rfl⟩ | hmem, hk⟩
    · exact .inl ⟨hk, rfl⟩
    · exact .inr ⟨k, hmem, hk⟩
  · rintro (⟨hk, rfl⟩ | ⟨k, hmem, hk⟩)
    · exact ⟨key, .inl ⟨rfl, rfl⟩, hk⟩
    · exact ⟨k, .inr hmem, hk⟩

variable {out options : Options}

theorem canonicalLoop_ok {spelled result : Options} (hout : (out.map Prod.fst).Nodup)
    (h : canonicalLoop casing what cloud out spelled options = .ok result) :
    (result.map Prod.fst).Nodup ∧ ∀ name value, result.get name = some value ↔
      out.get name = some value ∨ Sets casing cloud options name value := by
  induction options generalizing out spelled with
  | nil =>
    cases h
    exact ⟨hout, fun name value => by simp [Sets]⟩
  | cons e rest ih =>
    obtain ⟨key, value⟩ := e
    simp only [canonicalLoop] at h
    split_ifs at h with hother
    obtain ⟨hnodup, hholds⟩ := ih (Dict.nodup_set hout _ value) h
    refine ⟨hnodup, fun name v => ?_⟩
    rw [hholds, sets_cons, Dict.get_set]
    by_cases hname : name = canonicalKey casing key cloud
    · subst hname
      have hsame : ∀ w, out.get (canonicalKey casing key cloud) = some w → w = value := by
        intro w hw
        by_contra hne
        exact hother (by simp [hw, hne])
      simp only [if_true, true_and, Option.some.injEq]
      constructor
      · rintro (rfl | hrest)
        · exact .inr (.inl rfl)
        · exact .inr (.inr hrest)
      · rintro (hv | rfl | hrest)
        · exact .inl (hsame v hv).symm
        · exact .inl rfl
        · exact .inr hrest
    · simp only [if_neg hname, Ne.symm hname, false_and, false_or]

theorem canonicalLoop_error {spelled : Options} {e : SetTwice} (hout : (out.map Prod.fst).Nodup)
    (h : canonicalLoop casing what cloud out spelled options = .error e) :
    ∃ name v w, (out.get name = some v ∨ Sets casing cloud options name v) ∧
      Sets casing cloud options name w ∧ v ≠ w := by
  induction options generalizing out spelled with
  | nil => cases h
  | cons e' rest ih =>
    obtain ⟨key, value⟩ := e'
    simp only [canonicalLoop] at h
    split_ifs at h with hother
    · cases hget : out.get (canonicalKey casing key cloud) with
      | none => simp [hget] at hother
      | some v =>
        rw [hget] at hother
        exact ⟨_, v, value, .inl hget, sets_cons.mpr (.inl ⟨rfl, rfl⟩), by simpa using hother⟩
    · obtain ⟨name, v, w, hv, hw, hne⟩ := ih (Dict.nodup_set hout _ value) h
      refine ⟨name, v, w, ?_, sets_cons.mpr (.inr hw), hne⟩
      rcases hv with hv | hv
      · rw [Dict.get_set] at hv
        split_ifs at hv with hname
        · cases hv
          exact .inr (sets_cons.mpr (.inl ⟨hname.symm, rfl⟩))
        · exact .inl hv
      · exact .inr (sets_cons.mpr (.inr hv))

theorem canonicalOptions_ok (h : canonicalOptions casing what cloud options = .ok out) :
    Canonical casing cloud options out := by
  have hempty : (([] : Options).map Prod.fst).Nodup := nodup_nil
  obtain ⟨hnodup, hholds⟩ := canonicalLoop_ok hempty h
  exact ⟨hnodup, fun name value => by rw [hholds]; simp [Dict.get]⟩

theorem Canonical.consistent (h : Canonical casing cloud options out) :
    ¬ Contradicts casing cloud options := by
  rintro ⟨name, v, w, hv, hw, hne⟩
  have hv' := (h.holds name v).mpr hv
  rw [(h.holds name w).mpr hw] at hv'
  exact hne (Option.some.inj hv').symm

theorem canonicalOptions_error_iff :
    (∃ e, canonicalOptions casing what cloud options = .error e) ↔
      Contradicts casing cloud options := by
  constructor
  · rintro ⟨e, h⟩
    have hempty : (([] : Options).map Prod.fst).Nodup := nodup_nil
    obtain ⟨name, v, w, hv, hw, hne⟩ := canonicalLoop_error hempty h
    exact ⟨name, v, w, hv.resolve_left (by simp [Dict.get]), hw, hne⟩
  · intro h
    cases hout : canonicalOptions casing what cloud options with
    | ok out => exact absurd h (canonicalOptions_ok hout).consistent
    | error e => exact ⟨e, rfl⟩

variable {user given : Options}

theorem merged_nodup (huser : (user.map Prod.fst).Nodup) (hgiven : (given.map Prod.fst).Nodup) :
    ((merged casing cloud user given).map Prod.fst).Nodup := by
  rw [merged, Dict.update_unless]
  split_ifs
  · exact huser
  · exact Dict.nodup_update hgiven _

/-- The caller's value, unless it yields to the one given. -/
theorem merged_get (huser : (user.map Prod.fst).Nodup) (name : Text) :
    (merged casing cloud user given).get name =
      match user.get name with
      | some value =>
        if yields casing cloud given (name, value) then given.get name else some value
      | none => given.get name := by
  rw [merged, Dict.update_unless]
  split_ifs with hempty
  · subst hempty
    cases hget : user.get name with
    | none => rfl
    | some value => simp [yields, vendsCredential, truthy, Dict.get]
  · have hfilter : ((user.filter fun e => !yields casing cloud given e).map Prod.fst).Nodup :=
      huser.sublist (filter_sublist.map _)
    rw [Dict.get_update _ hfilter]
    cases hkept : Dict.get (user.filter fun e => !yields casing cloud given e) name with
    | some value =>
      obtain ⟨hget, hstays⟩ := (Dict.get_filter huser _).mp hkept
      rw [hget]
      simp only [Bool.not_eq_true'] at hstays
      simp [hstays]
    | none =>
      cases hget : user.get name with
      | none => rfl
      | some value =>
        have hyields : yields casing cloud given (name, value) = true := by
          by_contra hstays
          have hmem := (Dict.get_filter huser fun e => !yields casing cloud given e).mpr
            ⟨hget, by simpa using hstays⟩
          rw [hkept] at hmem
          cases hmem
        simp [hyields]

end DeltaSwamp.Storage
