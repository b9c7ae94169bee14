import DeltaSwamp.Storage.Merge

/-!
# Where an Azure location leads

`azure_target` of the extension's `store.rs`, and `azure_store_location` of `_storage.py` with the
host functions of `credentials/databricks.py`. A location is taken in the parts both URL parsers
split it into.
-/

namespace DeltaSwamp.Storage

/-- A URL with an authority; the scheme is in lower case. -/
structure Url where
  scheme : Text
  username : Text
  password : Option Text
  host : Text
  port : Option Text
  path : Text
  deriving DecidableEq

namespace Url

/-- What stands before the host, `@` left out. -/
def userinfo (url : Url) : Text := url.username ++ url.password.elim [] (':' :: ·)

/-- What stands after it. -/
def hostport (url : Url) : Text := url.host ++ url.port.elim [] (':' :: ·)

/-- `az://<container><path>` -/
def az (container path : Text) : Url where
  scheme := "az".toList
  username := []
  password := none
  host := container.takeWhile (· ≠ ':')
  port := if ':' ∈ container then some ((container.dropWhile (· ≠ ':')).drop 1) else none
  path := path

end Url

def asciiLower (text : Text) : Text := text.map Char.toLower

/-- What stands before the first dot of a host. -/
def firstLabel (host : Text) : Text := host.takeWhile (· ≠ '.')

/-- What stands after it. -/
def afterLabel (host : Text) : Text := (host.dropWhile (· ≠ '.')).drop 1

def endsWith (text : Text) (last : String) : Bool := last.toList.isSuffixOf text

def trimDots (host : Text) : Text := (host.reverse.dropWhile (· = '.')).reverse

/-- `AZURE_STORAGE_SUFFIXES` -/
def azureStorageSuffixes : List String :=
  ["core.windows.net", "core.chinacloudapi.cn", "core.usgovcloudapi.net", "core.cloudapi.de",
    "fabric.microsoft.com"]

/-- `PARSEABLE_AZURE_SUFFIXES` -/
def parseableAzureSuffixes : List String :=
  ["dfs.core.windows.net", "blob.core.windows.net", "dfs.fabric.microsoft.com",
    "blob.fabric.microsoft.com"]

def fabricSuffix : String := "fabric.microsoft.com"

/-- `is_azure_storage_host` of the extension; the host is in lower case. -/
def isAzureStorageHost (host : Text) : Bool :=
  azureStorageSuffixes.any fun suffix => endsWith (trimDots host) ("." ++ suffix)

def isParseable (host : Text) : Bool :=
  parseableAzureSuffixes.any fun suffix => endsWith host suffix

def endpointKeys : List Text :=
  ["azure_storage_endpoint", "azure_endpoint", "endpoint"].map String.toList

def emulatorKeys : List Text := ["azure_storage_use_emulator", "use_emulator"].map String.toList

def accountKeys : List Text := ["azure_storage_account_name", "account_name"].map String.toList

def azureEndpoint : Text := "azure_storage_endpoint".toList

def azureAccount : Text := "azure_storage_account_name".toList

def affirmative : List Text := ["true", "1", "yes", "on"].map String.toList

/-- `char::is_whitespace` -/
def isWhitespace (c : Char) : Bool :=
  c.toNat ∈ [0x9, 0xA, 0xB, 0xC, 0xD, 0x20, 0x85, 0xA0, 0x1680, 0x2000, 0x2001, 0x2002, 0x2003,
    0x2004, 0x2005, 0x2006, 0x2007, 0x2008, 0x2009, 0x200A, 0x2028, 0x2029, 0x202F, 0x205F, 0x3000]

/-- `str::trim` -/
def trim (text : Text) : Text :=
  ((text.dropWhile isWhitespace).reverse.dropWhile isWhitespace).reverse

inductive AzureRefusal where
  | wasb
  | noEndpoint
  | notAzureStorage (host : Text)
  | otherAccount (account named : Text)
  deriving DecidableEq

/-- A location with the options for it. -/
structure Target where
  url : Url
  options : Options
  deriving DecidableEq

/-- An option of one of these names that is not blank. -/
def sets (keys : List Text) (e : Text × Text) : Bool :=
  decide (asciiLower e.1 ∈ keys) && decide (trim e.2 ≠ [])

def hasAzureEndpoint (options : Options) : Bool :=
  options.any fun e => sets endpointKeys e ||
    (decide (asciiLower e.1 ∈ emulatorKeys) && decide (asciiLower (trim e.2) ∈ affirmative))

/-- `option_value`: the first of the map's entries. -/
def optionValue (options : Options) (keys : List Text) : Option Text :=
  (options.find? (sets keys)).map fun e => trim e.2

def hasOption (options : Options) (keys : List Text) : Bool := options.any (sets keys)

/-- The blob sibling of what follows the account in a dfs host. -/
def blobService (rest : Text) : Text :=
  match rest.dropPrefix? "dfs.".toList with
  | some service => "blob.".toList ++ service
  | none => rest

def isFabric (rest : Text) : Bool := endsWith rest fabricSuffix

/-- `azure_target`, where the URL names a container at an account's host. -/
def qualifiedTarget (url : Url) (options : Options) : Except AzureRefusal Target :=
  let host := asciiLower url.host
  let account := firstLabel host
  let rest := afterLabel host
  let fabric := isFabric rest
  if !hasAzureEndpoint options && !isAzureStorageHost host then .error (.notAzureStorage host)
  else
    match (optionValue options accountKeys).filter fun named =>
        !hasAzureEndpoint options && !fabric && asciiLower named ≠ asciiLower account with
    | some named => .error (.otherAccount account named)
    | none =>
      let out := if !hasAzureEndpoint options && !fabric then
          options.set azureEndpoint ("https://".toList ++ account ++ '.' :: blobService rest)
        else options
      if isParseable host then .ok ⟨url, out⟩
      else
        .ok ⟨.az url.username url.path,
          if hasOption options accountKeys then out else out.set azureAccount account⟩

def accountSchemes : List Text := ["abfs", "abfss", "az"].map String.toList

def wasbSchemes : List Text := ["wasb", "wasbs"].map String.toList

/-- `azure_target`; `options` are in the order the map goes through them. -/
def azureTarget (url : Url) (options : Options) : Except AzureRefusal Target :=
  if url.scheme ∈ wasbSchemes then .error .wasb
  else if url.scheme ∈ accountSchemes ∧ url.username ≠ [] ∧ '.' ∈ asciiLower url.host then
    qualifiedTarget url options
  else if hasAzureEndpoint options then .ok ⟨url, options⟩
  else .error .noEndpoint

section
variable (casing : Casing)

def loweredOptions (options : Options) : Options :=
  Dict.update [] (options.map fun e => (casing.lower e.1, e.2))

/-- A lowered option that is not blank, without the blanks around it. -/
def loweredGet (options : Options) (key : Text) : Option Text :=
  (((loweredOptions casing options).get key).map strip).filter (· ≠ [])

/-- `_names_azure_endpoint` -/
def namesAzureEndpoint (options : Options) : Bool :=
  (endpointKeys.any fun key => (loweredGet casing options key).isSome) ||
    emulatorKeys.any fun key =>
      (loweredGet casing options key).any fun value => decide (casing.lower value ∈ affirmative)

def namedAccount (options : Options) : Option Text :=
  (loweredGet casing options azureAccount).or
    (loweredGet casing options "account_name".toList)

/-- `rsplit(":", 1)[0]` -/
def withoutPort (host : Text) : Text :=
  if ':' ∈ host then ((host.reverse.dropWhile (· ≠ ':')).drop 1).reverse else host

/-- `is_azure_storage_host` -/
def isAzureStorageHostport (host : Text) : Bool :=
  let name := trimDots (casing.lower (strip (withoutPort host)))
  azureStorageSuffixes.any fun suffix => endsWith name ("." ++ suffix)

/-- `_blob_host` -/
def blobHost (host : Text) : Text :=
  if '.' ∈ host ∧ "dfs.".toList.isPrefixOf (casing.lower (afterLabel host)) = true then
    firstLabel host ++ ".blob.".toList ++ (afterLabel host).drop 4
  else host

/-- `azure_endpoint_for`, of an Azure location that names a host. -/
def azureEndpointFor (host : Text) : Option Text :=
  if isAzureStorageHostport casing host then some ("https://".toList ++ blobHost casing host)
  else none

/-- `_check_azure_host` -/
def checkAzureHost (host : Text) (options : Options) : Except AzureRefusal Unit :=
  if namesAzureEndpoint casing options then .ok ()
  else if !isAzureStorageHostport casing host then .error (.notAzureStorage host)
  else
    let account := casing.lower (firstLabel host)
    match (namedAccount casing options).filter fun named =>
        !endsWith (casing.lower host) fabricSuffix && casing.lower named ≠ account with
    | some named => .error (.otherAccount account named)
    | none => .ok ()

/-- `azure_store_location` -/
def azureStoreLocation (url : Url) (options : Options) : Except AzureRefusal Target :=
  let host := url.hostport
  if url.scheme ∈ accountSchemes ∧ url.userinfo ≠ [] ∧ '.' ∈ host then
    match checkAzureHost casing host options with
    | .error refusal => .error refusal
    | .ok () =>
      if isParseable (casing.lower host) then .ok ⟨url, options⟩
      else
        let out := options.fill [(azureAccount, firstLabel host)]
        let out :=
          if namesAzureEndpoint casing out then out
          else
            match azureEndpointFor casing host with
            | some endpoint => out.set azureEndpoint endpoint
            | none => out
        .ok ⟨.az url.userinfo url.path, out⟩
  else .ok ⟨url, options⟩

end

/-- What object_store reads from an Azure URL. -/
structure Parsed where
  container : Text
  account : Option Text
  fabric : Bool
  deriving DecidableEq

/-- The schemes whose host is the container. -/
def containerSchemes : List Text := ["adl", "azure"].map String.toList

/-- object_store's URL parser: a host is one of the parseable ones or names the container. -/
def parseAzure (url : Url) : Option Parsed :=
  if url.scheme ∈ accountSchemes then
    if url.username = [] then some ⟨url.host, none, false⟩
    else if (String.ofList (afterLabel url.host)) ∈ parseableAzureSuffixes then
      some ⟨url.username, some (firstLabel url.host), isFabric (afterLabel url.host)⟩
    else none
  else if url.scheme ∈ containerSchemes then some ⟨url.host, none, false⟩
  else none

/-- The host of an endpoint. -/
def endpointHost (endpoint : Text) : Text :=
  (withoutPrefix "https://".toList endpoint).takeWhile fun c => c ≠ ':' && c ≠ '/'

/-- What a request goes to. -/
structure Address where
  host : Text
  container : Text
  path : Text
  deriving DecidableEq

/-- The address object_store contacts: at the endpoint the options name or, without one, at the
account's default host. -/
def address (target : Target) : Option Address := do
  let parsed ← parseAzure target.url
  let host ←
    match optionValue target.options endpointKeys with
    | some endpoint => some (endpointHost endpoint)
    | none =>
      (parsed.account.or (optionValue target.options accountKeys)).map fun account =>
        account ++ (if parsed.fabric then ".blob.fabric.microsoft.com"
          else ".blob.core.windows.net").toList
  return ⟨host, parsed.container, target.url.path⟩

end DeltaSwamp.Storage
