import JaxFs.DeepListing
import JaxFs.LogTable
import JaxFs.MountAnswers
import JaxFs.PathStrings

/-!
# The public gateway

`http_server/html/gateway/mod.rs`: a request names a bucket, a path and perhaps the hash
of a version, and is answered from the mount of one version.  A page stands here with what
the mount puts into it; the rewriting of links, Markdown, hex dumps and the templates come
after that and look at nothing else of the mount.  The parser of hashes is an argument.
-/

namespace JaxFs

/-! ## Requests -/

def Database.publishedRows (db : Database) (id : Uuid) : List BucketLogRow :=
  db.bucketLog.filter (fun row => decide (row.bucketId = id) && row.published)

/-- `latest_published` of the SQLite log, which has one row at most for each height. -/
def Database.latestPublished (db : Database) (id : Uuid) : Option (Link × ℕ) :=
  match ((db.publishedRows id).map BucketLogRow.height).max? with
  | none => none
  | some top =>
      ((db.publishedRows id).find? (fun row => decide (row.height = top))).map
        (fun row => (row.currentLink, toU64 row.height))

section

variable [P : Primitives]

end

end JaxFs
