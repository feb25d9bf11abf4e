import JarRemap.Archive.Document
import JarRemap.Main
import JarRemap.Mapping.Document
import JarRemap.Proofs.Access.Application
import JarRemap.Proofs.Access.Lines
import JarRemap.Proofs.Attribute.Codecs
import JarRemap.Proofs.ClassFile.Delimited
import JarRemap.Proofs.ConstantPool.Interning
import JarRemap.Proofs.Descriptor.Shape
import JarRemap.Proofs.Hierarchy.Distance
import JarRemap.Proofs.Mapping.Srg
import JarRemap.Proofs.Remap.Changed
import JarRemap.Proofs.Remap.InnerNames
import JarRemap.Proofs.Remap.Inverse
import JarRemap.Proofs.Run.Entries
import JarRemap.Proofs.Run.Failed
import JarRemap.Proofs.Run.Reuse
import JarRemap.Proofs.Signature.Rename
import JarRemap.Proofs.Stage.Remap
import JarRemap.Proofs.Stage.Strip
import JarRemap.Proofs.Structure.ParameterNames
import JarRemap.Proofs.Structure.Rules
import JarRemap.Proofs.SymbolMap.CallSites
import JarRemap.Text.Hex
import JarRemap.Proofs.Text.Spelling
import JarRemap.Proofs.Structure.Document
import JarRemap.Proofs.Access.Stripping
