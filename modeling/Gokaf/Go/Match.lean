import Gokaf.Go.Path

namespace Go

-- `utf8.RuneError`
def runeError : Nat := 65533

def isContinuation (b : UInt8) : Bool :=
  128 ≤ b.toNat ∧ b.toNat ≤ 191

-- `utf8.DecodeRuneInString`: the first rune and its width in bytes. The second byte has fewer values behind those first
-- bytes that would otherwise start an overlong form, a surrogate or a rune that is too large.
def decodeRune : Bytes → Nat × Nat
  | [] => (runeError, 0)
  | b :: bs =>
    if b.toNat < 128 then
      (b.toNat, 1)
    else if 194 ≤ b.toNat ∧ b.toNat ≤ 223 then
      match bs with
      | b₁ :: _ =>
        if isContinuation b₁ then ((b.toNat - 192) * 64 + (b₁.toNat - 128), 2) else (runeError, 1)
      | _ => (runeError, 1)
    else if 224 ≤ b.toNat ∧ b.toNat ≤ 239 then
      match bs with
      | b₁ :: b₂ :: _ =>
        if isContinuation b₁ ∧ isContinuation b₂ ∧ (b.toNat = 224 → 160 ≤ b₁.toNat) ∧
            (b.toNat = 237 → b₁.toNat ≤ 159) then
          (((b.toNat - 224) * 64 + (b₁.toNat - 128)) * 64 + (b₂.toNat - 128), 3)
        else
          (runeError, 1)
      | _ => (runeError, 1)
    else if 240 ≤ b.toNat ∧ b.toNat ≤ 244 then
      match bs with
      | b₁ :: b₂ :: b₃ :: _ =>
        if isContinuation b₁ ∧ isContinuation b₂ ∧ isContinuation b₃ ∧ (b.toNat = 240 → 144 ≤ b₁.toNat) ∧
            (b.toNat = 244 → b₁.toNat ≤ 143) then
          ((((b.toNat - 240) * 64 + (b₁.toNat - 128)) * 64 + (b₂.toNat - 128)) * 64 + (b₃.toNat - 128), 4)
        else
          (runeError, 1)
      | _ => (runeError, 1)
    else
      (runeError, 1)

-- `filepath.Match` and `filepath.Glob`. The result `none` stands for `ErrBadPattern`.
namespace Pattern

-- The characters `*`, `?`, `[` and `\`.
def isMeta (b : UInt8) : Bool :=
  b = 42 ∨ b = 63 ∨ b = 91 ∨ b = 92

def hasMeta (pattern : Bytes) : Bool :=
  pattern.any isMeta

-- A character of a class, which may stand behind a backslash. Something must follow it.
def getEsc (chunk : Bytes) : Option (Nat × Bytes) :=
  match chunk with
  | [] => none
  | c :: cs =>
    if c = 45 ∨ c = 93 then
      none
    else
      let chunk := if c = 92 then cs else chunk
      let (r, n) := decodeRune chunk
      if n = 0 ∨ r = runeError ∧ n = 1 ∨ chunk.drop n = [] then none else some (r, chunk.drop n)

-- The ranges of a class up to its closing bracket: whether `r` is in one of them, and the rest of the chunk.
def matchRanges (r : Nat) : Nat → Nat → Bool → Bytes → Option (Bool × Bytes)
  | 0, _, _, _ => none
  | fuel + 1, nrange, found, chunk =>
    if chunk.head? = some 93 ∧ 0 < nrange then
      some (found, chunk.tail)
    else
      match getEsc chunk with
      | none => none
      | some (lo, chunk) =>
        if chunk.head? = some 45 then
          match getEsc chunk.tail with
          | none             => none
          | some (hi, chunk) => matchRanges r fuel (nrange + 1) (found || (lo ≤ r && r ≤ hi)) chunk
        else
          matchRanges r fuel (nrange + 1) (found || lo == r) chunk

-- What is left of `s` behind the chunk, if it matches. After a failure the loop goes on, to see that the pattern is
-- well-formed. Each round takes at least one byte off the chunk.
def matchChunk (chunk s : Bytes) : Option (Option Bytes) :=
  go (chunk.length + 1) false chunk s
where
  go : Nat → Bool → Bytes → Bytes → Option (Option Bytes)
    | 0, _, _, _ => none
    | _ + 1, failed, [], s => some (if failed then none else some s)
    | fuel + 1, failed, c :: chunk, s =>
      let failed := failed || s.isEmpty
      if c = 91 then
        let (r, n) := if failed then (0, 0) else decodeRune s
        let negated := chunk.head? = some 94
        let chunk := if negated then chunk.tail else chunk
        match matchRanges r (chunk.length + 1) 0 false chunk with
        | none                => none
        | some (found, chunk) => go fuel (failed || found == negated) chunk (s.drop n)
      else if c = 63 then
        if failed then
          go fuel true chunk s
        else
          go fuel (s.head? = some Path.separator) chunk (s.drop (decodeRune s).snd)
      else if c = 92 then
        match chunk with
        | []         => none
        | c :: chunk => go fuel (failed || s.head? != some c) chunk s.tail
      else
        go fuel (failed || s.head? != some c) chunk s.tail

-- The stars in front of a chunk, and the chunk up to the next star outside of a class.
def scanChunk (pattern : Bytes) : Bool × Bytes × Bytes :=
  let rest := pattern.dropWhile (· = 42)
  (pattern.head? = some 42, scan false rest)
where
  scan : Bool → Bytes → Bytes × Bytes
    | _, [] => ([], [])
    | _, [92] => ([92], [])
    | inRange, 92 :: c :: rest => (92 :: c :: (scan inRange rest).fst, (scan inRange rest).snd)
    | inRange, c :: rest =>
      if c = 42 ∧ !inRange then
        ([], c :: rest)
      else
        let inRange := if c = 91 then true else if c = 93 then false else inRange
        (c :: (scan inRange rest).fst, (scan inRange rest).snd)

-- Behind a star the chunk may match further back in the name, but not behind a slash. The last chunk has to match up to
-- the end.
def skip (chunk : Bytes) (last : Bool) : Bytes → Option (Option Bytes)
  | [] => some none
  | c :: name =>
    if c = Path.separator then
      some none
    else
      match matchChunk chunk name with
      | none          => none
      | some none     => skip chunk last name
      | some (some t) => if last ∧ t ≠ [] then skip chunk last name else some (some t)

-- The rest of a pattern that does not match is looked at for errors.
def isWellFormed : Nat → Bytes → Bool
  | 0, _ => false
  | _ + 1, [] => true
  | fuel + 1, pattern =>
    let (_, chunk, rest) := scanChunk pattern
    (matchChunk chunk []).isSome && isWellFormed fuel rest

def isMatch (pattern name : Bytes) : Option Bool :=
  go (pattern.length + 1) pattern name
where
  go : Nat → Bytes → Bytes → Option Bool
    | 0, _, _ => none
    | _ + 1, [], name => some (name = [])
    | fuel + 1, pattern, name =>
      let (star, chunk, rest) := scanChunk pattern
      if star ∧ chunk = [] then
        some (Path.separator ∉ name)
      else
        match matchChunk chunk name with
        | none => none
        | some found =>
          if found.any fun t => t = [] ∨ rest ≠ [] then
            go fuel rest (found.getD [])
          else
            match if star then skip chunk (rest = []) name else some none with
            | none          => none
            | some (some t) => go fuel rest t
            | some none     => if isWellFormed (rest.length + 1) rest then some false else none

end Pattern
end Go
