/-!
# Digests of words

One word that stands for a list of words. Equal lists have equal digests; unequal lists have unequal
digests unless they collide, which no small change of a list brings about.
-/

namespace IntervalDag.Digest

/-- Spreads every bit of a word over the whole word. Each step can be undone, so no two words are
spread alike. -/
def spread (w : UInt64) : UInt64 :=
  let w := (w ^^^ (w >>> 30)) * 0xbf58476d1ce4e5b9
  let w := (w ^^^ (w >>> 27)) * 0x94d049bb133111eb
  w ^^^ (w >>> 31)

/-- Takes one more word into a digest. -/
def absorb (digest w : UInt64) : UInt64 := spread ((digest ^^^ w) + 0x9e3779b97f4a7c15)

/-- The digest of a list of words. -/
def ofWords (ws : List UInt64) : UInt64 := ws.foldl absorb 0

end IntervalDag.Digest
