/-!
# Release

What this release of the library says about itself.
-/

namespace PdfPages

/-- The name under which the library is published. -/
def libraryName : String := "pdf_page_tree"

def version : String := "0.1.0"

end PdfPages
