import JarRemap.Archive.Deflate.Token

/-!
# Repeats

Finds for a place in a text what was there before and is as long as possible. Places where the next
three bytes have the same key are linked, each to the one before it, and such a chain is followed
back from the place in question. The effort is limited, so a longer repeat may be missed.
-/

namespace JarRemap.Deflate

/-! ## Links -/

def keys : Nat := 32768

/-- The key of three bytes. Others may share it. -/
def key (a b c : UInt8) : Nat :=
  ((a.toNat <<< 10) ^^^ (b.toNat <<< 5) ^^^ c.toNat) % keys

def key? (text : Array UInt8) (place : Nat) : Option Nat :=
  match text[place]?, text[place + 1]?, text[place + 2]? with
  | some a, some b, some c => some (key a b c)
  | _, _, _ => none

/-- Links `count` more places from `place` on. For every key, `latest` tells the place that had it
last. -/
def linksOnto (text : Array UInt8) : Nat → Nat → Array Nat → Array Nat → Array Nat
  | 0, _, _, links => links
  | count + 1, place, latest, links =>
    match key? text place with
    | some key =>
      linksOnto text count (place + 1) (latest.setIfInBounds key place)
        (links.push (latest.getD key 0))
    | none => links

/-- For every place the latest one before it that has the same key, or zero. -/
def links (text : Array UInt8) : Array Nat :=
  linksOnto text text.size 0 (.replicate keys 0) #[]

/-! ## The search -/

/-- Bytes that were written before. -/
structure Repeat where
  length : Nat
  distance : Nat
deriving DecidableEq, Repr

/-- A place in a text for which a repeat is looked for. -/
structure Spot where
  text : Array UInt8
  links : Array Nat
  place : Nat

namespace Spot

/-- How far back a text can refer, and be looked through. -/
def window : Nat := 32768

/-- How long a repeat can be here. -/
def ahead (spot : Spot) : Nat := min longestRepeat (spot.text.size - spot.place)

/-- How far back a repeat can lie. What is ahead takes a part of the window. -/
def reach (spot : Spot) : Nat := min spot.place (window - spot.ahead)

/-- Links tell places only up to multiples of this number. -/
def linkRange : Nat := 65536

/-- Where the link leads from so far back, again as a distance. Nothing links to the first place. -/
def linked? (spot : Spot) (back : Nat) : Option Nat :=
  let link := spot.links.getD (spot.place - back) 0 % linkRange
  let distance := (spot.place + linkRange - link) % linkRange
  if link = 0 || distance > spot.reach then none else some distance

/-- Whether the byte `offset` places on is the same as the one so far back. -/
def agrees (spot : Spot) (back offset : Nat) : Bool :=
  spot.text[spot.place - back + offset]? == spot.text[spot.place + offset]?

/-- How many bytes from `offset` on agree one after another, up to a number of them. -/
def agreeing (spot : Spot) (back : Nat) : Nat → Nat → Nat
  | 0, _ => 0
  | count + 1, offset =>
    if spot.agrees back offset then agreeing spot back count (offset + 1) + 1 else 0

/-- What following the links has led to. -/
inductive Trail
  | lost
  /-- Too many links were followed without finding anything. -/
  | passed (back : Nat)
  | found (back : Nat)
deriving DecidableEq, Repr

/-- Follows up to so many links to a place where a repeat may be longer than `length`: the last two
bytes of one would be there. -/
def follow (spot : Spot) (length : Nat) : Nat → Nat → Trail
  | 0, back => .passed back
  | count + 1, back =>
    match spot.linked? back with
    | none => .lost
    | some back =>
      if spot.agrees back (length - 1) && spot.agrees back length then .found back
      else follow spot length count back

/-- Links are followed in groups. A group ends as soon as it leads to a place worth a look. -/
def groupSize : Nat := 3

/-- Looks for a longer repeat than the one found so far with so many groups of links. -/
def search (spot : Spot) : Nat → Nat → Repeat → Repeat
  | 0, _, best => best
  | groups + 1, back, best =>
    match spot.follow best.length groupSize back with
    | .lost | .found 0 => best
    | .passed back => search spot groups back best
    | .found back =>
      let length := spot.agreeing back spot.ahead 0
      if length = spot.ahead then ⟨length, back⟩
      else search spot groups back (if length > best.length then ⟨length, back⟩ else best)

/-- How many groups of links are followed. Less is done for a place if the one before it has a long
repeat. -/
def groups (length : Nat) : Nat := if length < 32 then 43 else 11

/-- A reference farther back than this is not worth the shortest repeat. -/
def nearby : Nat := 8191

/-- A repeat that is longer than `length`. One that lies at the start of the window is refused. -/
def longer? (spot : Spot) (length : Nat) : Option Repeat :=
  if spot.ahead ≤ length then none
  else
    let best := spot.search (groups length) 0 ⟨length, 0⟩
    if best.distance = 0 || best.length = shortestRepeat && best.distance > nearby ||
      best.distance = spot.place % window then none
    else some best

end Spot

end JarRemap.Deflate
