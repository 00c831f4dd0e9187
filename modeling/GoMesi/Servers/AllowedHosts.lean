import GoMesi.Go.Fields
import GoMesi.Servers.Directives
import GoMesi.Servers.PhpProcess

/-!
# Allowed hosts

An empty list of hosts does not restrict anything, so that a value without any host must not get
through. What a host is decides libgomesi, with `strings.Fields`, when a page is parsed; the checks
are made before, in C, with loops over bytes that look for a byte that is not white space. nginx and
Apache take all white space into account, the extension for PHP only the space and what is not
ASCII, since it refuses control characters before.

Apache stores the hosts one by one, cut at blanks, and puts them together again for each request.
-/

namespace GoMesi

open Strings

/-! ## White space in C -/

namespace Nginx

end Nginx

namespace Apache

end Apache

namespace Php

end Php

/-! ## The widths -/

/-- No control characters, the ones that `parse_with_config` refuses. -/
def Printable (s : Bytes) : Prop := ∀ c ∈ s, ¬ (c < 0x20 ∨ c = 0x7f)

/-- The white space that the extension knows. -/
def Php.spaces : List Bytes := Strings.spaces.filter fun w ↦ decide (w = [0x20] ∨ 2 ≤ w.length)

theorem Php.prefixFree_spaces : PrefixFree Php.spaces :=
  ⟨fun v hv w hw ↦ Strings.prefixFree_spaces.1 v (List.mem_of_mem_filter hv) w
    (List.mem_of_mem_filter hw), fun w hw ↦ Strings.prefixFree_spaces.2 w (List.mem_of_mem_filter hw)⟩

namespace Nginx

end Nginx

namespace Apache

end Apache

namespace Php

end Php

end GoMesi
