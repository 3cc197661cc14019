import Distribd.Types
import Distribd.Schemes.Machine
import Distribd.Schemes.FileSystem

/-! The content store of one node. Four kinds of requests move files into it: the POST of a whole
    blob, the PUT that ends an upload session, the manifest PUT and the mirror. Each opens a file
    for append, writes the chunks that come in, hashes the file by its name, looks up its size and
    renames it to the place of its digest. All but the PUT work on a file with a fresh random name;
    a session file is shared by all requests that name its upload id, and a PATCH may have it open
    while a PUT hashes it and moves it away.

    `content` is the machine of these file system steps, in any interleaving; the checks of a
    request before it opens its file come first, in a step of their own. A request that fails
    leaves. The DELETE of a session and the collector remove names.

    SHA-256 is outside of this repository: `hex` is any function from contents to lower-case hex
    strings. An upload id is one file name below the upload directory. -/

namespace Distribd.Node
open Schemes

/-- The content of a file. -/
abbrev Bytes := List UInt8

/-! ### Names, requests and their steps -/

/-- The names below the storage root. -/
inductive Path where
  /-- `get_blob_path` / `get_manifest_path`; the algorithm is not part of the name. -/
  | object (kind : Kind) (hash : String)
  /-- `get_upload_path`. -/
  | session (uploadId : String)
  /-- The fresh random name of a request: `get_temp_path`, `get_temp_mirror_path`, and the upload
      path that a POST with a digest makes up for itself. -/
  | temp (request : ℕ)
  deriving DecidableEq

/-- `Digest::from_sha256`. -/
def fromSha256 (hex : String) : Digest := ⟨"sha256", hex⟩

/-- The requests that work on files. -/
inductive Job where
  | patch (uploadId : String)
  | put (uploadId : String) (digest : Digest)
  | post (digest : Digest)
  | manifest
  | mirror (kind : Kind) (digest : Digest)
  deriving DecidableEq

/-- The name that the `n`-th request works on. -/
def Job.path (n : ℕ) : Job → Path
  | .patch id | .put id _ => .session id
  | .post _ | .manifest | .mirror _ _ => .temp n

/-- The tree that the result goes to. -/
def Job.kind : Job → Kind
  | .manifest => .manifest
  | .mirror k _ => k
  | _ => .blob

/-- How far a request is. The inode of a hash is not known to the code; it is kept to say what the
    hash was taken of. -/
inductive Stage where
  /-- The checks before the file is opened are done. -/
  | begun
  /-- The file is open; `received` has come in so far. -/
  | writing (handle : ℕ) (received : Bytes)
  /-- The file is synced and closed. -/
  | written (received : Bytes)
  /-- Manifest PUT: `metadata` comes before the hash. -/
  | sized (size : ℕ)
  /-- The hash is validated. -/
  | hashed (digest : Digest) (inode : ℕ)
  /-- Everything up to the rename is done. -/
  | ready (digest : Digest) (inode : ℕ) (size : Option ℕ)
  /-- The file is in the store, the transaction is not committed. -/
  | placed (digest : Digest) (size : Option ℕ)
  | ended
  deriving DecidableEq

structure Req where
  job : Job
  stage : Stage
  deriving DecidableEq

/-- The files, the upload ids given out, the requests so far, the contents moved into the store and
    the sizes committed by `BlobStat` and `ManifestStat`. -/
structure State where
  fs : FileSystem Path UInt8
  sessions : Finset String
  requests : List Req
  moved : List Bytes
  stats : List (Kind × Digest × ℕ)

/-- The `n`-th request goes on to a stage. -/
def State.goTo (s : State) (n : ℕ) (r : Req) (stage : Stage) : State :=
  { s with requests := s.requests.set n { r with stage } }

/-- The file system steps. -/
inductive Event where
  /-- POST without a digest: a session file is created. -/
  | start (uploadId : String)
  /-- A request comes in and passes the checks before it opens its file. -/
  | arrive (job : Job)
  | openFile (n : ℕ)
  | write (n : ℕ) (chunk : Bytes)
  | close (n : ℕ)
  | hash (n : ℕ)
  | stat (n : ℕ)
  | rename (n : ℕ)
  /-- The transaction of the request commits. -/
  | commit (n : ℕ)
  /-- The request fails, or is done. -/
  | leave (n : ℕ)
  /-- DELETE of a session. -/
  | dropSession (uploadId : String)
  /-- The collector removes an object. -/
  | dropObject (kind : Kind) (digest : Digest)

/-- The checks before the file is opened: `is_file` on the session, and for PUT the algorithm. -/
def admits (s : State) : Job → Bool
  | .patch id => (s.fs.link (.session id)).isSome
  | .put id d => (s.fs.link (.session id)).isSome && d.algo = "sha256"
  | _ => true

/-- `validate_hash` (or `get_hash` for a manifest) on the inode `i`, and the stage after it. The
    mirror also compares the digest of the bytes it has received. -/
def hashStage (hex : Bytes → String) (fs : FileSystem Path UInt8) (i : ℕ) : Req → Option Stage
  | ⟨.put _ d, .written _⟩ | ⟨.post d, .written _⟩ =>
    if fromSha256 (hex (fs.data i)) = d then some (.hashed d i) else none
  | ⟨.mirror _ d, .written received⟩ =>
    if fromSha256 (hex received) = d ∧ fromSha256 (hex (fs.data i)) = d then
      some (.ready d i none)
    else none
  | ⟨.manifest, .sized size⟩ => some (.ready (fromSha256 (hex (fs.data i))) i (some size))
  | _ => none

/-- `metadata(..).len()` on the inode `i`, and the stage after it. -/
def statStage (fs : FileSystem Path UInt8) (i : ℕ) : Req → Option Stage
  | ⟨.manifest, .written _⟩ => some (.sized (fs.data i).length)
  | ⟨_, .hashed d i₀⟩ => some (.ready d i₀ (some (fs.data i).length))
  | _ => none

/-- One step. -/
def contentStep (hex : Bytes → String) (s : State) : Event → Option State
  | .start id =>
    if id ∈ s.sessions then none
    else some { s with
      fs := (s.fs.openAppend (.session id)).2, sessions := insert id s.sessions }
  | .arrive job =>
    if admits s job then some { s with requests := s.requests ++ [⟨job, .begun⟩] } else none
  | .openFile n =>
    s.requests[n]?.bind fun r =>
      match r.stage with
      | .begun =>
        let (i, fs) := s.fs.openAppend (r.job.path n)
        some { s.goTo n r (.writing i []) with fs }
      | _ => none
  | .write n chunk =>
    s.requests[n]?.bind fun r =>
      match r.stage with
      | .writing i received =>
        some { s.goTo n r (.writing i (received ++ chunk)) with fs := s.fs.append i chunk }
      | _ => none
  | .close n =>
    s.requests[n]?.bind fun r =>
      match r.stage with
      | .writing _ received => some (s.goTo n r (.written received))
      | _ => none
  | .hash n =>
    s.requests[n]?.bind fun r => (s.fs.link (r.job.path n)).bind fun i =>
      (hashStage hex s.fs i r).map (s.goTo n r)
  | .stat n =>
    s.requests[n]?.bind fun r => (s.fs.link (r.job.path n)).bind fun i =>
      (statStage s.fs i r).map (s.goTo n r)
  | .rename n =>
    s.requests[n]?.bind fun r =>
      match r.stage with
      | .ready d _ size =>
        (s.fs.read (r.job.path n)).bind fun bytes =>
          (s.fs.rename (r.job.path n) (.object r.job.kind d.hash)).map fun fs =>
            { s.goTo n r (.placed d size) with fs, moved := s.moved ++ [bytes] }
      | _ => none
  | .commit n =>
    s.requests[n]?.bind fun r =>
      match r.stage with
      | .placed d size => some { s.goTo n r .ended with
          stats := s.stats ++ size.toList.map fun size => (r.job.kind, d, size) }
      | _ => none
  | .leave n => s.requests[n]?.map fun r => s.goTo n r .ended
  | .dropSession id => some { s with fs := s.fs.unlink (.session id) }
  | .dropObject k d => some { s with fs := s.fs.unlink (.object k d.hash) }

/-- A node with an empty store. -/
def content (hex : Bytes → String) : Machine State Event :=
  ⟨⟨.empty, ∅, [], [], []⟩, contentStep hex⟩

/-! ### When nobody disturbs a PUT -/

/-- The digest and the inode of a request between its hash and its rename. -/
def Stage.taken : Stage → Option (Digest × ℕ)
  | .hashed d i | .ready d i _ => some (d, i)
  | _ => none

/-- No request writes to a file that is in the store, or to a session file that a PUT has hashed and
    not yet moved, and no request makes such a session file anew under the same name. -/
def Undisturbed (s : State) : Event → Prop
  | .write n _ => ∀ r i received, s.requests[n]? = some r → r.stage = .writing i received →
      (∀ k h, s.fs.link (.object k h) ≠ some i) ∧
      ∀ (m : ℕ) (r' : Req) (d : Digest) (id : String), s.requests[m]? = some r' →
        r'.job.path m = .session id → r'.stage.taken ≠ some (d, i)
  | .openFile n => ∀ r id, s.requests[n]? = some r → r.job.path n = .session id →
      s.fs.link (.session id) = none →
        ∀ (m : ℕ) (r' : Req), s.requests[m]? = some r' → r'.job.path m = .session id →
          r'.stage.taken = none
  | _ => True

end Distribd.Node
