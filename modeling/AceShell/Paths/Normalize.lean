import AceShell.Names.Containment
import AceShell.Paths.Host

/-!
# Walking a path

`normalizeMappedPath` decodes a path one component at a time against the directory reached so
far; `normalizeMappedPathBeneath` then checks that the text it built starts with its base and
that the nearest existing ancestor is on the base's file system.
-/

namespace AceShell

open Text

variable (z : Zlib) (host : Host)

def rootPath : Name := [slash]

/-! ## The walk -/

/-- The separator `snprintf` puts before the next component: none after a lone `/`. -/
def separatorFor (result : Name) : Name := if 1 < result.length then [slash] else []

def appendComponent (result decoded : Name) (resultSize : ℕ) : Except Errno Name :=
  copyOut (result ++ separatorFor result ++ decoded) resultSize

def walkMapped (resultSize : ℕ) : Name → List Name → Except Errno Name
  | result, [] => .ok result
  | result, segment :: rest =>
    if segment = [] then walkMapped resultSize result rest
    else
      match unmapComponent z (host.listing result) segment pathMax with
      | .error e => .error e
      | .ok decoded =>
        match appendComponent result decoded resultSize with
        | .error e => .error e
        | .ok result' => walkMapped resultSize result' rest

/-- `normalize_mapped_path`. -/
def normalizeMappedPath (base path : Name) (resultSize : ℕ) : Except Errno Name :=
  if pathMax * 2 ≤ path.length then .error .enametoolong
  else if path.head? = some slash then
    walkMapped z host resultSize rootPath (path.splitOn slash)
  else if resultSize ≤ base.length then .error .enametoolong
  else walkMapped z host resultSize base (path.splitOn slash)

/-! ## Staying on one file system -/

def trimLast (path : Name) : Option Name :=
  match (path.reverse.dropWhile (· != slash)) with
  | [] => none
  | [_] => none
  | _ :: rest => some rest.reverse

/-- The walk of `within_base_filesystem` up to an ancestor that exists. -/
def withinBaseLoop (cat : Catalog) (base : Name) (baseInfo : FileStat) :
    ℕ → Name → Except Errno Unit
  | 0, _ => .ok ()
  | fuel + 1, probe =>
    match host.stat probe with
    | .ok probeInfo =>
      if probeInfo.dev ≠ baseInfo.dev then
        if cat.isFullRoot base then .ok () else .error .enoent
      else .ok ()
    | .error e =>
      if e = .enoent ∨ e = .enotdir ∨ e = .eacces ∨ e = .eperm then
        match trimLast probe with
        | none => .ok ()
        | some shorter =>
          if shorter = base then .ok () else withinBaseLoop cat base baseInfo fuel shorter
      else .error e

/-- `within_base_filesystem`. -/
def withinBaseFilesystem (cat : Catalog) (base path : Name) : Except Errno Unit :=
  match host.stat base with
  | .error e => .error e
  | .ok baseInfo =>
    if pathMax ≤ path.length then .error .enametoolong
    else withinBaseLoop host cat base baseInfo (path.length + 1) path

def lexicallyBeneath (base result : Name) : Bool :=
  base == rootPath || result == base ||
    (base.isPrefixOf result && result[base.length]? == some slash)

def normalizeMappedPathBeneath (cat : Catalog) (base path : Name) (resultSize : ℕ) :
    Except Errno Name :=
  match normalizeMappedPath z host base path resultSize with
  | .error e => .error e
  | .ok result =>
    if lexicallyBeneath base result then
      (withinBaseFilesystem host cat base result).map fun _ => result
    else .error .eacces

end AceShell
