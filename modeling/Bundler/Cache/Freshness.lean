/-
Freshness: the newest time of a file and of all that it imports.

A pass works the freshness of a file out once. On the way down every file is marked with its own
time, so a circle of imports comes to an end at the mark; on the way up the mark is replaced by
the result. A missing file, or, if so wanted, one that was never written, makes all files above it
unresolvable.

The way down never meets a marked file twice, and only files that were there before the pass have
imports. So the number of entries bounds how far down it goes.
-/
import Bundler.Cache.Basic

set_option autoImplicit false

namespace Bundler.Cache

/-- The newest of a time and the times of some files, each worked out by `visit`. A file without
a time ends the search without a result. -/
def newest (visit : String → Cache → Freshness × Cache) (time : Nat) :
    List String → Cache → Option Nat × Cache
  | [], c => (some time, c)
  | file :: files, c =>
    let (f, c) := visit file c
    match f.time? with
    | some t => newest visit (max time t) files c
    | none => (none, c)

/-- Gives an entry its freshness, as an answer. -/
def settle (c : Cache) (id : Nat) (f : Freshness) : Freshness × Cache :=
  (f, c.modify id fun e => { e with freshness := f })

/-- The freshness of an entry, going down a number of steps at most. -/
def freshnessWithin (disk : Disk) (dir : String) (ignoreMissingOutput : Bool) :
    Nat → Nat → Cache → Freshness × Cache
  | 0, _, c => (.unresolvable, c)
  | depth + 1, id, c =>
    let known := (c.entry id).freshness
    if known != .unset then (known, c)
    else
      let c := c.probe disk id
      match (c.entry id).current.time? with
      | none => c.settle id .unresolvable
      | some time =>
        let (_, c) := c.settle id (.inProgress time)
        let e := c.entry id
        if !ignoreMissingOutput && !e.outputTime.isSet then c.settle id .unresolvable
        else
          let files := (e.references?.map References.files).getD []
          let visit (file : String) (c : Cache) : Freshness × Cache :=
            let (id, c) := c.get dir file
            freshnessWithin disk dir ignoreMissingOutput depth id c
          match newest visit time files c with
          | (some t, c) => c.settle id (.at t)
          | (none, c) => c.settle id .unresolvable

/-- The freshness of an entry. A file that was never written makes it unresolvable, unless that
is ignored. -/
def freshness (disk : Disk) (dir : String) (ignoreMissingOutput : Bool) (id : Nat) (c : Cache) :
    Freshness × Cache :=
  freshnessWithin disk dir ignoreMissingOutput (c.entries.length + 2) id c

/-- Whether a file has to be written again. -/
def isStale (disk : Disk) (dir : String) (ignoreMissingOutput force : Bool) (id : Nat)
    (c : Cache) : Bool × Cache :=
  if force then (true, c)
  else
    let (_, c) := c.freshness disk dir ignoreMissingOutput id
    (!(c.entry id).isOutputCurrent, c)

end Bundler.Cache
