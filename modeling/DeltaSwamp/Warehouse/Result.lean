import DeltaSwamp.Result

/-!
# The result of a warehouse statement

`SdkStatementBackend._arrow` and `_download_fresh` of `engine/sql_backend.py`:
the chunks of a result followed by the server's pointers, and each link
downloaded, once more from a fresh answer where the first download fails. The
rewriting of year-month columns as text, row by row, is left out.
-/

namespace DeltaSwamp.Warehouse

/-- A presigned link to a part of the result. -/
structure Link where
  externalLink : String
  chunkIndex : Option Int
  nextChunkIndex : Option Int
  deriving DecidableEq

structure Chunk where
  externalLinks : List Link
  chunkIndex : Option Int
  nextChunkIndex : Option Int
  deriving DecidableEq

structure Manifest where
  truncated : Bool
  totalChunkCount : Option Int
  totalRowCount : Option Nat

/-- A statement's answer; `statementId` is whether it, or the one before it, gave an id. -/
structure Response where
  statementId : Bool
  manifest : Manifest
  result : Option Chunk

/-- What a download holds, once it is opened as an Arrow stream. -/
structure Stream (σ ρ : Type) where
  schema : σ
  rows : List ρ

/-- The server and the storage behind it. An answer may differ from request to request, which are
counted from the first on. -/
structure Server (σ ρ : Type) where
  /-- `get_statement_result_chunk_n`; `none` where it raises. -/
  chunk : Nat → Int → Option (Option Chunk)
  /-- The bytes a download reads, opened; `none` where the download fails. -/
  fetch : Nat → Link → Option (Option (Stream σ ρ))
  /-- Whether a link is an https one. -/
  https : Link → Bool
  /-- `_schema_from_manifest`. -/
  manifestSchema : σ

inductive Raised where
  | truncated
  /-- A result chunk served twice. -/
  | twice (index : Int)
  | notHttps
  | download
  /-- The API call itself raises. -/
  | api
  /-- The bytes are no Arrow stream. -/
  | badStream
  | schemaMismatch
  | rowCount (rows expected : Nat)
  deriving DecidableEq

section
variable {σ ρ : Type} (server : Server σ ρ) (statementId : Bool)

/-- `_download`, opened, as request number `requests`. -/
def download (requests : Nat) (link : Link) : Except Raised (Option (Stream σ ρ)) :=
  if server.https link then
    match server.fetch requests link with
    | some data => .ok data
    | none => .error .download
  else .error .notHttps

/-- `_download_fresh`: the data, and the number of the next request. -/
def downloadFresh (requests : Nat) (link : Link) (chunkIndex : Option Int) (position : Nat) :
    Except Raised (Option (Stream σ ρ) × Nat) :=
  match download server requests link with
  | .ok data => .ok (data, requests + 1)
  | .error .download =>
    match chunkIndex with
    | none => .error .download
    | some index =>
      if statementId then
        match server.chunk (requests + 1) index with
        | none => .error .api
        | some fresh =>
          let links := (fresh.map Chunk.externalLinks).getD []
          match links[position]? with
          | none => .error .download
          | some link =>
            (download server (requests + 2) link).map fun data => (data, requests + 3)
      else .error .download
  | .error raised => .error raised

/-- Where the reading of a result has come to. -/
structure Progress (σ ρ : Type) where
  requests : Nat
  seen : List Int
  streams : List (Stream σ ρ)

/-- The links of one chunk, from `position` on: the progress, and the pointer to the next chunk. -/
def readLinks (index : Option Int) : Progress σ ρ → Option Int → Nat → List Link →
    Except Raised (Progress σ ρ × Option Int)
  | p, next, _, [] => .ok (p, next)
  | p, next, position, link :: links =>
    let fetched := match link.chunkIndex with
      | none => downloadFresh server statementId p.requests link index position
      | some linkIndex => downloadFresh server statementId p.requests link (some linkIndex) 0
    match fetched with
    | .error raised => .error raised
    | .ok (none, _) => .error .badStream
    | .ok (some stream, requests) =>
      readLinks index { p with requests := requests, streams := p.streams ++ [stream] }
        (link.nextChunkIndex <|> next) (position + 1) links

/-- The number of a chunk, on itself or on its first link. -/
def Chunk.index (c : Chunk) : Option Int :=
  c.chunkIndex <|> c.externalLinks.head?.bind Link.chunkIndex

/-- One turn of the loop: the progress and the pointer to the next chunk. -/
def visit (p : Progress σ ρ) (c : Chunk) : Except Raised (Progress σ ρ × Option Int) :=
  match c.index with
  | some index =>
    if index ∈ p.seen then .error (.twice index)
    else readLinks server statementId (some index) { p with seen := p.seen ++ [index] }
      c.nextChunkIndex 0 c.externalLinks
  | none => readLinks server statementId none p c.nextChunkIndex 0 c.externalLinks

/-- The loop over the chunks; `none` while it is still going. -/
def follow : Nat → Progress σ ρ → Option Chunk → Option (Except Raised (Progress σ ρ))
  | _, p, none => some (.ok p)
  | 0, _, some _ => none
  | turns + 1, p, some c =>
    match visit server statementId p c with
    | .error raised => some (.error raised)
    | .ok (p, none) => some (.ok p)
    | .ok (p, some next) =>
      match server.chunk p.requests next with
      | none => some (.error .api)
      | some c => follow turns { p with requests := p.requests + 1 } c

/-- `pa.Table.from_batches`, and the check of the row count. -/
def assemble [DecidableEq σ] (manifest : Manifest) (streams : List (Stream σ ρ)) :
    Except Raised (Stream σ ρ) :=
  let schema := (streams.head?.map Stream.schema).getD server.manifestSchema
  let rows := streams.flatMap Stream.rows
  if streams.any fun s => s.schema ≠ schema then .error .schemaMismatch
  else
    match manifest.totalRowCount with
    | some expected =>
      if rows.length ≠ expected then .error (.rowCount rows.length expected)
      else .ok ⟨schema, rows⟩
    | none => .ok ⟨schema, rows⟩

/-- The first chunk: the response's, or the one asked for where only the manifest came. -/
def firstChunk (response : Response) : Except Raised (Nat × Option Chunk) :=
  match response.result with
  | some c => .ok (0, some c)
  | none =>
    if response.manifest.totalChunkCount.any (0 < ·) && response.statementId then
      match server.chunk 0 0 with
      | none => .error .api
      | some c => .ok (1, c)
    else .ok (0, none)

end

/-- `_arrow`, with at most `turns` chunks followed; `none` while it is still going. -/
def arrow {σ ρ : Type} [DecidableEq σ] (server : Server σ ρ) (response : Response) (turns : Nat) :
    Option (Except Raised (Stream σ ρ)) :=
  if response.manifest.truncated then some (.error .truncated)
  else
    match firstChunk server response with
    | .error raised => some (.error raised)
    | .ok (requests, c) =>
      (follow server response.statementId turns ⟨requests, [], []⟩ c).map fun
        | .error raised => .error raised
        | .ok p => assemble server response.manifest p.streams

end DeltaSwamp.Warehouse
