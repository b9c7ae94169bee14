import DeltaSwamp.Storage.Merge

/-!
# What an engine hands its object store

`environment_options`, the weakest layer; `pin_s3_endpoint`; and
`engine_options`, all the layers in one.
-/

namespace DeltaSwamp.Storage

variable (casing : Casing)

/-- A standard setting of the environment. -/
def isStandard (e : Text × Text) : Bool :=
  "AWS_".toList.isPrefixOf (casing.upper e.1) && decide (e.2 ≠ [])

/-- The settings an environment may make. -/
def knownInEnvironment (name : Text) : Bool :=
  decide (name ∈ s3Aliases.map Prod.fst) || decide (name ∈ clientKeys)

/-- The environment may make a setting that nothing stronger makes, a credential only where
there is none. -/
def admits (present : Options) (name : Text) : Bool :=
  knownInEnvironment name && (present.get name).isNone &&
    !(vendsCredential (some .s3) present && decide (name ∈ credentialKeys (some .s3)))

/-- The loop of `environment_options`, over the sorted environment. -/
def environmentLoop (present out : Options) : Options → Options
  | [] => out
  | (name, value) :: rest =>
    if isStandard casing (name, value) then
      let key := canonicalKey casing name (some .s3)
      if admits present key && (out.get key).isNone then
        environmentLoop present (out.set key value) rest
      else environmentLoop present out rest
    else environmentLoop present out rest

/-- `environment_options`. -/
def environmentOptions (location : Text) (present environment : Options) : Options :=
  if cloudOf casing location = some .s3 then
    environmentLoop casing present [] (environment.insertionSort fun a b => a.1 ≤ b.1)
  else []

/-- The regional endpoint of `pin_s3_endpoint`. -/
def regionalEndpoint (r : Text) : Text :=
  "https://s3.".toList ++ r ++ ".".toList ++
    (if "cn-".toList.isPrefixOf (casing.lower r) then "amazonaws.com.cn".toList
    else "amazonaws.com".toList)

/-- `pin_s3_endpoint`. -/
def pinS3Endpoint (options : Options) (location : Text) (vended : Bool) : Options :=
  if cloudOf casing location = some .s3 then
    match options.get region with
    | none => options
    | some r =>
      if r = [] ∨ (options.get accessKeyId).isNone ∨ truthy (options.get endpoint) then options
      else if vended || "cn-".toList.isPrefixOf (casing.lower r) then
        options.set endpoint (regionalEndpoint casing r)
      else options
  else options

/-- The vended keys, as `engine_options` looks for them: under a canonical name, in any case. -/
def vendsByName (vended : Options) : Bool :=
  vended.any fun e => casing.lower e.1 ∈ credentialKeys (some .s3)

/-- What is left of the environment beside vended keys. -/
def environmentLeft (vended environment : Options) : Options :=
  if vendsByName casing vended then (environment.pop endpoint).pop style else environment

/-- The layers put together, the caller's and the vended ones merged. -/
def layered (vended : Options) (location : Text) (environment options : Options) : Options :=
  let environment := environmentOptions casing location options environment
  pinS3Endpoint casing (options.update (environmentLeft casing vended environment)) location
    (decide (vended ≠ []))

/-- `engine_options`. -/
def engineOptions (base vended : Options) (location : Text) (environment : Options) :
    Except SetTwice Options := do
  let options ← mergeOptions casing base vended location
  return layered casing vended location environment options

/-- The environment gives the setting this value, under any of its `AWS_` spellings. -/
def SetsInEnvironment (environment : Options) (name value : Text) : Prop :=
  ∃ key, (key, value) ∈ environment ∧ isStandard casing (key, value) = true ∧
    canonicalKey casing key (some .s3) = name

variable {casing} {present : Options}

variable {out : Options}

theorem environmentLoop_nodup (h : (out.map Prod.fst).Nodup) (environment : Options) :
    ((environmentLoop casing present out environment).map Prod.fst).Nodup := by
  induction environment generalizing out with
  | nil => exact h
  | cons e rest ih =>
    simp only [environmentLoop]
    split_ifs
    · exact ih (Dict.nodup_set h _ _)
    · exact ih h
    · exact ih h

variable {value name : Text}

theorem setsInEnvironment_cons {key : Text} {rest : Options} {v : Text} :
    SetsInEnvironment casing ((key, value) :: rest) name v ↔
      (isStandard casing (key, value) = true ∧ canonicalKey casing key (some .s3) = name ∧
        v = value) ∨ SetsInEnvironment casing rest name v := by
  simp only [SetsInEnvironment, List.mem_cons, Prod.mk.injEq]
  constructor
  · rintro ⟨k, ⟨rfl, rfl⟩ | hmem, hstandard, hk⟩
    · exact .inl ⟨hstandard, hk, rfl⟩
    · exact .inr ⟨k, hmem, hstandard, hk⟩
  · rintro (⟨hstandard, hk, rfl⟩ | ⟨k, hmem, hstandard, hk⟩)
    · exact ⟨key, .inl ⟨rfl, rfl⟩, hstandard, hk⟩
    · exact ⟨k, .inr hmem, hstandard, hk⟩

variable {environment : Options}

/-- What the loop adds comes from an admitted variable. -/
theorem environmentLoop_sound
    (h : (environmentLoop casing present out environment).get name = some value) :
    out.get name = some value ∨
      (admits present name = true ∧ SetsInEnvironment casing environment name value) := by
  induction environment generalizing out with
  | nil => exact .inl h
  | cons e rest ih =>
    obtain ⟨key, v⟩ := e
    simp only [environmentLoop] at h
    have hrest : ∀ out' : Options, (environmentLoop casing present out' rest).get name =
        some value → out'.get name = some value ∨ (admits present name = true ∧
          SetsInEnvironment casing ((key, v) :: rest) name value) := fun out' h' =>
      (ih h').imp_right fun hsets => ⟨hsets.1, setsInEnvironment_cons.mpr (.inr hsets.2)⟩
    split_ifs at h with hstandard hadmits
    · rcases hrest _ h with hget | hsets
      · rw [Dict.get_set] at hget
        split_ifs at hget with hname
        · cases hget
          rw [Bool.and_eq_true, ← hname] at hadmits
          exact .inr ⟨hadmits.1, setsInEnvironment_cons.mpr (.inl ⟨hstandard, hname.symm, rfl⟩)⟩
        · exact .inl hget
      · exact .inr hsets
    · exact hrest _ h
    · exact hrest _ h

theorem environmentLoop_keeps (h : (out.get name).isSome) :
    ((environmentLoop casing present out environment).get name).isSome := by
  induction environment generalizing out with
  | nil => exact h
  | cons e rest ih =>
    simp only [environmentLoop]
    split_ifs with hstandard hadmits
    · apply ih
      rw [Dict.get_set]
      split_ifs
      · rfl
      · exact h
    · exact ih h
    · exact ih h

theorem environmentLoop_complete (hadmits : admits present name = true)
    (h : SetsInEnvironment casing environment name value) :
    ((environmentLoop casing present out environment).get name).isSome := by
  induction environment generalizing out with
  | nil =>
    obtain ⟨_, hmem, _⟩ := h
    cases hmem
  | cons e rest ih =>
    obtain ⟨key, v⟩ := e
    simp only [environmentLoop]
    rcases setsInEnvironment_cons.mp h with ⟨hstandard, hkey, rfl⟩ | hrest
    · rw [if_pos hstandard, hkey, hadmits, Bool.true_and]
      split_ifs with hnew
      · apply environmentLoop_keeps
        simp [Dict.get_set]
      · apply environmentLoop_keeps
        simpa [Option.isSome_iff_ne_none] using hnew
    · split_ifs
      · exact ih hrest
      · exact ih hrest
      · exact ih hrest

theorem setsInEnvironment_sorted :
    SetsInEnvironment casing (environment.insertionSort fun a b => a.1 ≤ b.1) name value ↔
      SetsInEnvironment casing environment name value := by
  simp only [SetsInEnvironment,
    (List.perm_insertionSort (fun a b : Text × Text => a.1 ≤ b.1) environment).mem_iff]

variable {location : Text}

theorem environmentOptions_sound
    (h : (environmentOptions casing location present environment).get name = some value) :
    cloudOf casing location = some .s3 ∧ admits present name = true ∧
      SetsInEnvironment casing environment name value := by
  rw [environmentOptions] at h
  split_ifs at h with hcloud
  · rcases environmentLoop_sound h with hnone | ⟨hadmits, hsets⟩
    · cases hnone
    · exact ⟨hcloud, hadmits, setsInEnvironment_sorted.mp hsets⟩
  · cases h

theorem environmentOptions_complete (hcloud : cloudOf casing location = some .s3)
    (hadmits : admits present name = true) (h : SetsInEnvironment casing environment name value) :
    ((environmentOptions casing location present environment).get name).isSome := by
  rw [environmentOptions, if_pos hcloud]
  exact environmentLoop_complete hadmits (setsInEnvironment_sorted.mpr h)

theorem environmentOptions_nodup (environment : Options) :
    ((environmentOptions casing location present environment).map Prod.fst).Nodup := by
  rw [environmentOptions]
  split_ifs
  · have hempty : (([] : Options).map Prod.fst).Nodup := List.nodup_nil
    exact environmentLoop_nodup hempty _
  · exact List.nodup_nil

end DeltaSwamp.Storage
